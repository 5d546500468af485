import Cachebox.Client.Alignment
import Cachebox.Client.Typed
import Cachebox.Server.Ledger
import Cachebox.Theory.Delimited

/-!
# Requests that are sent over a connection

A client that waits for its answers writes one or more requests on an idle connection. They arrive
in reads of any size, the server executes them one by one or in tasks, in any order and with
anything else in between, and writes the responses in the order in which they are ready. In the log
of what the server did meanwhile each request is executed once, by a thread of its own, and the
bytes that were written are the responses that the requests got there.
-/

namespace Cachebox
namespace Server
open Protocol BigEndian
open Call (ShardOp)

/-! ## The execution of a request -/

section
variable {n : Nat} [NeZero n] {hash : String → Bytes → Nat} {maxPayloadLen : Nat}

/-- What comes of a request: it is executed, by operations on shards of the engine, and its outcome
is reported, or it cannot be expressed in the format and is refused. The format has no way to tell a
zero from an optional field that is left out. -/
inductive Executed (hash : String → Bytes → Nat) (o : IterOrder) (payload : RequestPayload) :
    List (ShardOp n × Outcome) → ResponsePayload → Prop
  | accepted {done : List (ShardOp n × Outcome)} {outcome : Outcome} :
    payload.zerosAsNone.WellFormed →
    Call.Returns hash (requestOp o payload.zerosAsNone) done outcome →
    Executed hash o payload done (outcomeResponse outcome)
  | refused (e : DecodeError) : ¬ payload.zerosAsNone.WellFormed →
    Executed hash o payload [] (.error (nativeDecodeErrorCode e) (debugText e))

/-- The frame of a request is accepted exactly if the format can express the request. -/
theorem decodeRequestFrame_own {requestId : UInt64} {payload : RequestPayload} {bytes : Bytes}
    (hbytes : encodeRequestFrame ⟨requestId, payload.command, payload⟩ = some bytes)
    (htags : payload.tags.length ≤ 65535) (hlen : (payload.wire 0).length ≤ maxPayloadLen) :
    (payload.zerosAsNone.WellFormed ∧ decodeRequestFrame bytes maxPayloadLen =
        .ok ⟨requestId, payload.command, payload.zerosAsNone⟩) ∨
      ¬ payload.zerosAsNone.WellFormed ∧
        ∃ e, decodeRequestFrame bytes maxPayloadLen = .error e := by
  have hcommand : payload.command = payload.zerosAsNone.command := by cases payload <;> rfl
  have hsame : encodeRequestFrame ⟨requestId, payload.command, payload.zerosAsNone⟩ =
      some bytes := by
    rw [← hbytes, encodeRequestFrame_eq, encodeRequestFrame_eq, RequestPayload.wire_zerosAsNone]
  by_cases hwell : payload.zerosAsNone.WellFormed
  · refine .inl ⟨hwell, ?_⟩
    rw [encodeRequestFrame_eq] at hsame
    split at hsame
    next hlt =>
      cases hsame
      refine decodeRequestFrame_iff.mpr
        ⟨⟨hcommand, hwell⟩, 0, [], (List.append_nil _).symm, ?_, hlt⟩
      rwa [RequestPayload.wire_zerosAsNone]
    next => cases hsame
  · refine .inr ⟨hwell, ?_⟩
    cases hdecode : decodeRequestFrame bytes maxPayloadLen with
    | error e => exact ⟨e, rfl⟩
    | ok g =>
      have hlossless := @lossless_zerosAsNone ⟨requestId, payload.command, payload⟩ rfl htags
      cases hlossless.decode_encode hsame hdecode
      exact absurd (decodeRequestFrame_iff.mp hdecode).1.payload hwell

/-- The frame of a request starts with the magic and has the length of its payload. -/
theorem front_of_encodeRequestFrame {f : RequestFrame} {bytes : Bytes}
    (h : encodeRequestFrame f = some bytes) :
    magic <+: bytes ∧ bytes.length = headerLen + (f.payload.wire 0).length ∧
      UInt64.ofNat (ofBytes (bytes.extract 8 16)) = f.requestId ∧
      Command.fromId (bytes.getD 6 0) = .ok f.command := by
  rw [encodeRequestFrame_eq] at h
  split at h
  next hlt =>
    cases h
    obtain ⟨hid, hcommand⟩ := header_frameBytes kindRequest f.command f.requestId
      (f.payload.wire 0) []
    rw [List.append_nil] at hid hcommand
    refine ⟨?_, length_frameBytes .., hid, Command.fromId_eq_ok_iff.mpr hcommand⟩
    simp only [frameBytes, headerBytes, List.append_assoc]
    exact List.prefix_append ..
  next => cases h

/-- The response to the frame of a request carries its id and its command and says what came of
it. -/
theorem executed_own {o : IterOrder} {connectionId requestId : UInt64} {payload : RequestPayload}
    {bytes : Bytes}
    (hbytes : encodeRequestFrame ⟨requestId, payload.command, payload⟩ = some bytes)
    (htags : payload.tags.length ≤ 65535) (hlen : (payload.wire 0).length ≤ maxPayloadLen)
    {done : List (ShardOp n × Outcome)} {r : Option ResponseFrame}
    (h : Returns hash maxPayloadLen (.frame o connectionId bytes) done r) :
    ∃ response, r = some ⟨requestId, payload.command, response⟩ ∧
      Executed hash o payload done response := by
  obtain ⟨hwell, hok⟩ | ⟨hwell, e, herror⟩ := decodeRequestFrame_own hbytes htags hlen
  · cases h with
    | request hdecode hreturns =>
      cases hdecode.symm.trans hok
      exact ⟨_, rfl, .accepted hwell hreturns⟩
    | rejected hdecode => cases hdecode.symm.trans hok
  · cases h with
    | request hdecode => cases hdecode.symm.trans herror
    | rejected hdecode =>
      cases hdecode.symm.trans herror
      obtain ⟨hmagic, hlength, hid, hcommand⟩ := front_of_encodeRequestFrame hbytes
      obtain ⟨⟨id, command, content⟩, hsome, hid', hcommand', hpayload⟩ :=
        nativeDecodeErrorResponse_eq_some (hlength ▸ Nat.le_add_right ..) hmagic e
      cases hid'.trans hid
      cases hcommand' _ hcommand
      cases hpayload
      exact ⟨_, hsome, .refused e hwell⟩

end

theorem numbered_append (frames frames' : List Bytes) :
    numbered (frames ++ frames') =
      numbered frames ++ (frames'.zipIdx frames.length).map fun x => ⟨x.2, x.1⟩ := by
  rw [numbered, numbered, List.mapIdx_append]
  refine congrArg _ (List.ext_getElem (by simp) fun i h₁ h₂ => ?_)
  simp [Nat.add_comm]

/-- A way to cut bytes into the reads in which they arrive. -/
structure Cut where
  chunks : Bytes → List Bytes
  flatten_chunks : ∀ bytes, (chunks bytes).flatten = bytes
  ne_nil_of_mem : ∀ bytes, ∀ chunk ∈ chunks bytes, chunk ≠ []


namespace Connection
variable {n : Nat}

/-- Bytes arrive. -/
def arrive (cut : Cut) (bytes : Bytes) (c : Connection n) : Connection n :=
  { c with reads := c.reads ++ cut.chunks bytes }

/-- All that has arrived has been executed and answered, and the handler waits for more. -/
structure CaughtUp (c : Connection n) : Prop where
  settled : c.Settled
  reads : c.reads = []
  readBuffer : c.readBuffer = []
  phase : c.phase = .reading

theorem caughtUp_iff {c : Connection n} :
    c.CaughtUp ↔ c.Settled ∧ c.reads = [] ∧ c.readBuffer = [] ∧ c.phase = .reading :=
  ⟨fun h => ⟨h.settled, h.reads, h.readBuffer, h.phase⟩, fun h => ⟨h.1, h.2.1, h.2.2.1, h.2.2.2⟩⟩

instance (c : Connection n) : Decidable c.CaughtUp := decidable_of_iff' _ caughtUp_iff

variable [NeZero n]

/-- The connection has caught up, and the ledger since the process was in state `p` accounts for all
its frames. -/
def Ready (alloc : Allocator) (hash : String → Bytes → Nat) (maxPayloadLen : Nat) (p : Process n)
    (c : Connection n) : Prop :=
  c.CaughtUp ∧ (∀ frame ∈ c.extracted, magic <+: frame) ∧ ∃ actions finished written,
    Ledger alloc hash maxPayloadLen p actions finished written c ∧ c.Lossless finished

section
variable {alloc : Allocator} {hash : String → Bytes → Nat} {maxPayloadLen : Nat} {p : Process n}
  {c : Connection n} {actions : List (Pool.Action Server.Action)}
  {finished : List (Task × Option ResponseFrame)} {written : List Bytes}

theorem Ledger.arrive (h : Ledger alloc hash maxPayloadLen p actions finished written c)
    (cut : Cut) (bytes : Bytes) :
    Ledger alloc hash maxPayloadLen p actions finished written (c.arrive cut bytes) where
  executes := h.executes.congr rfl rfl rfl rfl rfl rfl
  pays := ⟨h.pays.responses, h.pays.output⟩
  shape := ⟨h.shape.inline, h.shape.last, h.shape.closed⟩

omit [NeZero n] in
/-- The frames that arrive are what the handler has to read. -/
theorem CaughtUp.undelivered_arrive (h : c.CaughtUp) {frames : List Bytes}
    (hframes : ∀ frame ∈ frames, (nativeFraming maxPayloadLen).IsFrame frame) (cut : Cut) :
    (c.arrive cut frames.flatten).undelivered maxPayloadLen = frames := by
  show (deliverNativeFrames maxPayloadLen (c.reads ++ cut.chunks frames.flatten) c.readBuffer).1 = _
  rw [h.reads, h.readBuffer, List.nil_append, deliverNativeFrames_eq hframes
    (verdict_nil maxPayloadLen) (verdict_nil maxPayloadLen) (cut.ne_nil_of_mem _)
    (by rw [cut.flatten_chunks, List.append_nil, List.nil_append])]

omit [NeZero n] in
theorem CaughtUp.undelivered (h : c.CaughtUp) : c.undelivered maxPayloadLen = [] := by
  rw [Connection.undelivered, h.reads, h.readBuffer,
    deliverNativeFrames_nil (verdict_nil maxPayloadLen)]

theorem delivered_run {run : List Connection.Action}
    (hphase : (c.run alloc hash maxPayloadLen run).phase = .reading) :
    (c.run alloc hash maxPayloadLen run).extracted ++
        (c.run alloc hash maxPayloadLen run).undelivered maxPayloadLen =
      c.extracted ++ c.undelivered maxPayloadLen := by
  induction run using List.reverseRecOn with
  | nil => rfl
  | append_singleton run action ih =>
    rw [run_concat] at hphase ⊢
    obtain ⟨hbefore, heq⟩ := (moves_step _ action).delivered hphase
    rw [heq, ih hbefore]

theorem server_run (c : Connection n) (run : List Connection.Action) :
    (c.run alloc hash maxPayloadLen run).server = Machine.run
      (Threads.step alloc hash maxPayloadLen) c.server
      (c.threadActions alloc hash maxPayloadLen run) := by
  induction run using List.reverseRecOn with
  | nil => rfl
  | append_singleton run action ih =>
    rw [run_concat, threadActions_concat, Machine.run_append, ← ih]
    exact (moves_step _ action).server

theorem connectionId_run (c : Connection n) (run : List Connection.Action) :
    (c.run alloc hash maxPayloadLen run).connectionId = c.connectionId := by
  induction run using List.reverseRecOn with
  | nil => rfl
  | append_singleton run action ih =>
    rw [run_concat, (moves_step _ action).connectionId, ih]

/-- Each frame is executed by the thread with its number. -/
theorem Ledger.numbered_of_settled
    (h : Ledger alloc hash maxPayloadLen p actions finished written c) (hsettled : c.Settled) :
    (finished.map Prod.fst).Perm (numbered c.extracted) ∧ c.spawned = c.extracted.length ∧
      (finished.filterMap reply).Perm written := by
  obtain ⟨hframes, htasks, hsending, hchannel⟩ := hsettled
  obtain ⟨begun, hbegun, hlen, hperm⟩ := h.executes.begun
  have hresponses := h.pays.responses
  rw [hchannel, hsending, List.append_nil, List.append_nil] at hresponses
  rw [hframes, List.append_nil] at hbegun
  rw [htasks, List.nil_append, ← hbegun] at hperm
  exact ⟨hperm, hbegun ▸ hlen.symm, hresponses⟩

theorem Executes.seen_append (h : Executes alloc hash maxPayloadLen p actions finished c)
    (acts : List (Pool.Action Server.Action)) (t : Nat) :
    Threads.seen alloc hash maxPayloadLen p (actions ++ acts) t =
      Threads.seen alloc hash maxPayloadLen p actions t ++
        Atomic.ofThread t (c.server.observed alloc hash maxPayloadLen acts) := by
  rw [Threads.seen, Atomic.seen, Atomic.observed_append, Atomic.ofThread_append, h.server]
  rfl

/-- All that is seen of a thread that has not begun is seen from then on. -/
theorem Executes.seen_of_fresh (h : Executes alloc hash maxPayloadLen p actions finished c)
    (acts : List (Pool.Action Server.Action)) {index : Nat} (hfresh : c.spawned ≤ index) :
    Threads.seen alloc hash maxPayloadLen p (actions ++ acts) (ownThread index) =
      Atomic.ofThread (ownThread index) (c.server.observed alloc hash maxPayloadLen acts) := by
  rw [h.seen_append, h.unseen index hfresh, List.nil_append]

/-- On a connection at rest all executions that have begun have ended. -/
theorem Ledger.exists_finished
    (h : Ledger alloc hash maxPayloadLen p actions finished written c) (hsettled : c.Settled)
    {index : Nat} (hindex : index < c.spawned) : ∃ x ∈ finished, x.1.index = index := by
  obtain ⟨htasks, hspawned, -⟩ := h.numbered_of_settled hsettled
  have hmem : index ∈ (finished.map Prod.fst).map Task.index := by
    rw [(htasks.map Task.index).mem_iff, map_index_numbered, List.mem_range, ← hspawned]
    exact hindex
  rw [List.map_map] at hmem
  exact List.mem_map.mp hmem

/-- A thread that has returned is seen no more. -/
theorem Executes.unseen_of_returned {c' : Connection n}
    (h : Executes alloc hash maxPayloadLen p actions finished c)
    {acts : List (Pool.Action Server.Action)} {completions : List (Task × Option ResponseFrame)}
    (h' : Executes alloc hash maxPayloadLen p (actions ++ acts) (finished ++ completions) c')
    {x : Task × Option ResponseFrame} (hx : x ∈ finished) :
    c.server.calls.lookup x.1.thread = none ∧
      Atomic.ofThread x.1.thread (c.server.observed alloc hash maxPayloadLen acts) = [] := by
  obtain ⟨o, hseen⟩ := h.returned x hx
  obtain ⟨o', hseen'⟩ := h'.returned x (List.mem_append_left _ hx)
  constructor
  · obtain ⟨log, hlog, hvisible⟩ := h.exists_log
    refine hlog.lookup_eq_none fun op => ?_
    have hlast : Atomic.ofThread x.1.thread _ = _ := hseen
    rw [hvisible, hlast]
    simp
  · rw [h.seen_append, hseen] at hseen'
    have hlength := congrArg List.length hseen'
    rw [List.length_append] at hlength
    exact List.length_eq_zero_iff.mp (by simpa using hlength)

/-- The bytes of a response as the server encodes it. -/
def Encodes (response : ResponseFrame) (bytes : Bytes) : Prop :=
  encodeResponseFrame response = some bytes ∧ response.payload.Answers response.command

/-- What comes of frames that have arrived: they are executed by the next threads, in `ordered` with
their responses, and `more` is written. -/
structure Exchange (alloc : Allocator) (hash : String → Bytes → Nat) (maxPayloadLen : Nat)
    (c c' : Connection n) (acts : List (Pool.Action Server.Action)) (frames : List Bytes)
    (ordered : List (Task × ResponseFrame)) (more : List Bytes) : Prop where
  spawned : c'.spawned = c.spawned + frames.length
  tasks : ordered.map Prod.fst = (frames.zipIdx c.spawned).map fun x => ⟨x.2, x.1⟩
  headers : ∀ x ∈ ordered,
    x.2.requestId = UInt64.ofNat (ofBytes (x.1.frame.extract 8 16)) ∧
      ∀ command, Command.fromId (x.1.frame.getD 6 0) = .ok command → x.2.command = command
  encoded : ∃ encoded, List.Forall₂ Encodes (ordered.map Prod.snd) encoded ∧ encoded.Perm more
  output : c'.output = c.output ++ more.flatten
  seen : ∀ x ∈ ordered, ∃ o,
    Atomic.ofThread x.1.thread (c.server.observed alloc hash maxPayloadLen acts) =
      [.call x.1.thread (.frame o c.connectionId x.1.frame), .returned x.1.thread (some x.2)]
  unseen : ∀ index, index < c.spawned ∨ c.spawned + frames.length ≤ index →
    c.server.calls.lookup (ownThread index) = none ∧
      Atomic.ofThread (ownThread index) (c.server.observed alloc hash maxPayloadLen acts) = []

/-- The executions that have given the responses `ordered`. -/
def returns (ordered : List (Task × ResponseFrame)) : List (Task × Option ResponseFrame) :=
  ordered.map (Prod.map id some)

/-- Executions that have all been answered. -/
theorem exists_returns_eq {executions : List (Task × Option ResponseFrame)}
    (hreplied : ∀ x ∈ executions, reply x ≠ none)
    (hresponse : ∀ x ∈ executions, ∃ r, x.2 = some r ∧ r.payload.Answers r.command) :
    ∃ ordered, returns ordered = executions ∧
      List.Forall₂ Encodes (ordered.map Prod.snd) (executions.filterMap reply) := by
  induction executions with
  | nil => exact ⟨[], rfl, .nil⟩
  | cons x executions ih =>
    rw [List.forall_mem_cons] at hreplied hresponse
    obtain ⟨ordered, hordered, hencodes⟩ := ih hreplied.2 hresponse.2
    obtain ⟨task, response⟩ := x
    obtain ⟨r, hr, hanswers⟩ := hresponse.1
    cases hr
    obtain ⟨bytes, hbytes⟩ := Option.ne_none_iff_exists'.mp hreplied.1
    refine ⟨(task, r) :: ordered, congrArg _ hordered, ?_⟩
    rw [List.filterMap_cons_some hbytes]
    exact .cons ⟨hbytes, hanswers⟩ hencodes

/-- A run that adds to the ledger of a connection and leads it from rest to rest. -/
theorem exchange_of_ledgers {c' : Connection n} {acts : List (Pool.Action Server.Action)}
    {completions : List (Task × Option ResponseFrame)} {more frames : List Bytes}
    (h₀ : Ledger alloc hash maxPayloadLen p actions finished written c) (hsettled₀ : c.Settled)
    (h : Ledger alloc hash maxPayloadLen p (actions ++ acts) (finished ++ completions)
      (written ++ more) c') (hsettled : c'.Settled)
    (hid : c'.connectionId = c.connectionId) (hextracted : c'.extracted = c.extracted ++ frames)
    (hreplied : ∀ x ∈ completions, reply x ≠ none)
    (hresponse : ∀ x ∈ completions, ∃ r, x.2 = some r ∧
      r.requestId = UInt64.ofNat (ofBytes (x.1.frame.extract 8 16)) ∧
      (∀ command, Command.fromId (x.1.frame.getD 6 0) = .ok command → r.command = command) ∧
      r.payload.Answers r.command) :
    ∃ ordered, Exchange alloc hash maxPayloadLen c c' acts frames ordered more := by
  obtain ⟨htasks₀, hspawned₀, hresponses₀⟩ := h₀.numbered_of_settled hsettled₀
  obtain ⟨htasks, hspawned, hresponses⟩ := h.numbered_of_settled hsettled
  rw [hextracted, numbered_append, List.map_append] at htasks
  rw [List.filterMap_append] at hresponses
  -- the executions in the order of the frames
  obtain ⟨executions, hexecutions, hnew⟩ := PipelinedResponseMatcher.exists_perm_map_eq
    ((List.perm_append_left_iff _).mp (htasks.trans (htasks₀.symm.append_right _)))
  obtain ⟨ordered, rfl, hencodes⟩ := exists_returns_eq
    (fun x hx => hreplied x (hexecutions.subset hx)) (fun x hx => by
      obtain ⟨r, hr, -, -, hanswers⟩ := hresponse x (hexecutions.subset hx)
      exact ⟨r, hr, hanswers⟩)
  have hmem : ∀ x ∈ ordered, (x.1, some x.2) ∈ completions :=
    fun x hx => hexecutions.subset (List.mem_map_of_mem hx)
  have hlater : c'.spawned = c.spawned + frames.length := by
    rw [hspawned, hextracted, List.length_append, hspawned₀]
  rw [← hspawned₀, returns, List.map_map] at hnew
  refine ⟨ordered, hlater, hnew, ?_, ⟨_, hencodes, ?_⟩, ?_, ?_, ?_⟩
  · intro x hx
    obtain ⟨r, hr, hrequestId, hcommand, -⟩ := hresponse _ (hmem x hx)
    cases hr
    exact ⟨hrequestId, hcommand⟩
  · exact (hexecutions.filterMap reply).trans ((List.perm_append_left_iff _).mp
      (hresponses.trans (hresponses₀.symm.append_right _)))
  · rw [h.pays.output, h₀.pays.output, List.flatten_append]
  · intro x hx
    obtain ⟨o, hseen⟩ := h.executes.returned _ (List.mem_append_right _ (hmem x hx))
    have hfresh : c.spawned ≤ x.1.index := by
      have htask := List.mem_map_of_mem (f := Prod.fst) hx
      rw [show ordered.map Prod.fst = _ from hnew] at htask
      obtain ⟨y, hy, heq⟩ := List.mem_map.mp htask
      rw [← heq]
      exact List.le_snd_of_mem_zipIdx hy
    rw [hid, h₀.executes.seen_of_fresh acts hfresh] at hseen
    exact ⟨o, hseen⟩
  · rintro index (hindex | hindex)
    · obtain ⟨x, hx, rfl⟩ := h₀.exists_finished hsettled₀ hindex
      exact h₀.executes.unseen_of_returned h.executes hx
    · have hle : c.spawned ≤ index := (Nat.le_add_right _ _).trans hindex
      have hseen := h.executes.unseen index (hlater ▸ hindex)
      rw [h₀.executes.seen_of_fresh acts hle] at hseen
      exact ⟨h₀.executes.lookup_eq_none hle, hseen⟩

theorem Ready.exchange (h : Ready alloc hash maxPayloadLen p c)
    (hwithin : ShardsWithin (valueBound maxPayloadLen) p.app.engine.shards) {frames : List Bytes}
    (hframes : ∀ frame ∈ frames, (nativeFraming maxPayloadLen).IsFrame frame)
    (hmagic : ∀ frame ∈ frames, magic <+: frame) {cut : Cut} {run : List Connection.Action}
    (hfits : ∀ ev ∈ Machine.history (step alloc hash maxPayloadLen) (c.arrive cut frames.flatten)
      run, ev.before.batchFits alloc hash maxPayloadLen ev.action)
    (hcaught : ((c.arrive cut frames.flatten).run alloc hash maxPayloadLen run).CaughtUp) :
    Ready alloc hash maxPayloadLen p
        ((c.arrive cut frames.flatten).run alloc hash maxPayloadLen run) ∧
      ∃ ordered more, Exchange alloc hash maxPayloadLen c
        ((c.arrive cut frames.flatten).run alloc hash maxPayloadLen run)
        ((c.arrive cut frames.flatten).threadActions alloc hash maxPayloadLen run) frames ordered
        more := by
  obtain ⟨hcaught₀, hmagic₀, actions, finished, written, hledger₀, hlossless₀⟩ := h
  have harrive := hledger₀.arrive cut frames.flatten
  obtain ⟨more, hledger⟩ := harrive.run run
  have hextracted : ((c.arrive cut frames.flatten).run alloc hash maxPayloadLen run).extracted =
      c.extracted ++ frames := by
    have hdelivered := @delivered_run n _ alloc hash maxPayloadLen _ run hcaught.phase
    rw [hcaught.undelivered, List.append_nil, hcaught₀.undelivered_arrive hframes] at hdelivered
    exact hdelivered
  have hmagic' : ∀ frame ∈ ((c.arrive cut frames.flatten).run alloc hash maxPayloadLen
      run).extracted, magic <+: frame := by
    rw [hextracted]
    exact List.forall_mem_append.mpr ⟨hmagic₀, hmagic⟩
  have hlossless := Lossless.run (c := c.arrive cut frames.flatten) hlossless₀ harrive hwithin
    hmagic' hfits
  obtain ⟨ordered, hexchange⟩ := exchange_of_ledgers hledger₀ hcaught₀.settled hledger
    hcaught.settled (connectionId_run ..) hextracted
    (fun x hx => hlossless.reply_ne_none hcaught.phase (List.mem_append_right _ hx))
    (fun x hx => by
      have hfinished := List.mem_append_right finished hx
      obtain ⟨r, hr, hid, hcommand, hdocumented, -⟩ := hledger.executes.exists_response hwithin
        hfinished (hmagic' _ (hledger.executes.mem_extracted (List.mem_append_right _
          (List.mem_map_of_mem hfinished))))
      exact ⟨r, hr, hid, hcommand, answers_of_documented hdocumented⟩)
  exact ⟨⟨hcaught, hmagic', _, _, _, hledger, hlossless⟩, ordered, more, hexchange⟩

/-! ## The log of the server -/

/-- `log` is a log of what the threads of the server have done since its shards were `shards`. It
says nothing yet of the executions that the connection will begin. -/
structure Logged (alloc : Allocator) (hash : String → Bytes → Nat) (maxPayloadLen : Nat)
    (shards : Fin n → Engine) (log : List (Threads.Mark n)) (c : Connection n) : Prop where
  explains : (Work.implementation alloc hash maxPayloadLen).Explains shards log c.server
  fresh : ∀ index ≥ c.spawned, Atomic.ofThread (ownThread index) log = []

/-- The log `during` shows the execution of the request by thread `t`, and nothing else that the
thread has done. -/
def ExecutedBy (hash : String → Bytes → Nat) (connectionId : UInt64)
    (during : List (Threads.Mark n)) (request : RequestFrame) (t : Nat)
    (response : ResponsePayload) : Prop :=
  ∃ o bytes done, encodeRequestFrame request = some bytes ∧
    Atomic.ofThread t during = Atomic.completed t (.frame o connectionId bytes) done
      (some ⟨request.requestId, request.command, response⟩) ∧
    Executed hash o request.payload done response

/-- The log `during` shows the executions of the requests, one after the other in threads of their
own, and nothing else that the connection has done. -/
structure ExecutedIn (hash : String → Bytes → Nat) (c : Connection n)
    (requests : List RequestFrame) (during : List (Threads.Mark n))
    (responses : List ResponsePayload) : Prop where
  executed : List.Forall₂
    (fun x response => ExecutedBy hash c.connectionId during x.1 (ownThread x.2) response)
    (requests.zipIdx c.spawned) responses
  only : ∀ index, index < c.spawned ∨ c.spawned + requests.length ≤ index →
    Atomic.ofThread (ownThread index) during = []

/-! ## Requests and their responses -/

/-- The request is within the limits of the format and of the server. -/
structure Sendable (maxPayloadLen : Nat) (request : RequestFrame) : Prop where
  command : request.command = request.payload.command
  tags : request.payload.tags.length ≤ 65535
  length : (request.payload.wire 0).length ≤ maxPayloadLen

theorem forall₂_zipIdx {α β : Type} {R : α → β → Prop} {as : List α} {bs : List β}
    (h : List.Forall₂ R as bs) (k : Nat) :
    List.Forall₂ (fun x y => R x.1 y.1 ∧ x.2 = y.2) (as.zipIdx k) (bs.zipIdx k) := by
  induction h generalizing k with
  | nil => exact .nil
  | cons hfirst _ ih => exact .cons ⟨hfirst, rfl⟩ (ih (k + 1))

theorem forall₂_imp_of_mem {α β : Type} {R S : α → β → Prop} {as : List α} {bs : List β}
    (h : List.Forall₂ R as bs) (himp : ∀ a ∈ as, ∀ b ∈ bs, R a b → S a b) :
    List.Forall₂ S as bs := by
  induction h with
  | nil => exact .nil
  | cons hfirst _ ih =>
    exact .cons (himp _ List.mem_cons_self _ List.mem_cons_self hfirst) (ih fun a ha b hb =>
      himp a (List.mem_cons_of_mem _ ha) b (List.mem_cons_of_mem _ hb))

section
variable {c' : Connection n} {acts : List (Pool.Action Server.Action)} {frames : List Bytes}
  {ordered : List (Task × ResponseFrame)} {more : List Bytes} {requests : List RequestFrame}

/-- The executions in the order of the requests. -/
theorem Exchange.forall₂ (h : Exchange alloc hash maxPayloadLen c c' acts frames ordered more)
    (hencode : List.Forall₂ (fun request bytes => encodeRequestFrame request = some bytes) requests
      frames) :
    List.Forall₂ (fun x y => encodeRequestFrame x.1 = some y.1.frame ∧ y.1.index = x.2)
      (requests.zipIdx c.spawned) ordered := by
  have htasks : List.Forall₂ (fun x task => encodeRequestFrame x.1 = some task.frame ∧
      task.index = x.2) (requests.zipIdx c.spawned) (ordered.map Prod.fst) := by
    rw [h.tasks, List.forall₂_map_right_iff]
    exact (forall₂_zipIdx hencode c.spawned).imp fun _ _ hxy => ⟨hxy.1, hxy.2.symm⟩
  exact List.forall₂_map_right_iff.mp htasks

/-- The responses carry the ids and the commands of the requests. -/
theorem Exchange.map_header (h : Exchange alloc hash maxPayloadLen c c' acts frames ordered more)
    (hencode : List.Forall₂ (fun request bytes => encodeRequestFrame request = some bytes) requests
      frames) :
    (ordered.map Prod.snd).map NativeClient.header = requests.map NativeClient.header := by
  have hpairs := forall₂_imp_of_mem (h.forall₂ hencode)
    (S := fun x y => NativeClient.header y.2 = NativeClient.header x.1) fun x _ y hy hxy => by
      obtain ⟨-, -, hid, hcommand⟩ := front_of_encodeRequestFrame hxy.1
      obtain ⟨hid', hcommand'⟩ := h.headers y hy
      exact Prod.ext (hid'.trans hid) (hcommand' _ hcommand)
  have heq := List.forall₂_map_left_iff.mpr (List.forall₂_map_right_iff.mpr
    (hpairs.imp fun _ _ hxy => hxy.symm))
  rw [List.forall₂_eq_eq_eq] at heq
  rw [List.map_map, ← List.zipIdx_map_fst c.spawned requests, List.map_map]
  exact heq.symm

/-- The log of the server shows the executions of the requests, with the responses that they got. -/
theorem Exchange.executedIn (h : Exchange alloc hash maxPayloadLen c c' acts frames ordered more)
    (hserver : c'.server = Machine.run (Threads.step alloc hash maxPayloadLen) c.server acts)
    (hencode : List.Forall₂ (fun request bytes => encodeRequestFrame request = some bytes) requests
      frames) (hsendable : ∀ request ∈ requests, Sendable maxPayloadLen request)
    {shards : Fin n → Engine} {log : List (Threads.Mark n)}
    (hlogged : c.Logged alloc hash maxPayloadLen shards log) :
    ∃ during, c'.Logged alloc hash maxPayloadLen shards (log ++ during) ∧
      during.filter Atomic.Mark.visible = c.server.observed alloc hash maxPayloadLen acts ∧
      c.ExecutedIn hash requests during ((ordered.map Prod.snd).map (·.payload)) := by
  obtain ⟨during, hexplains, hvisible⟩ := hlogged.explains.run acts
  rw [← hserver] at hexplains
  have hunseen : ∀ index, index < c.spawned ∨ c.spawned + frames.length ≤ index →
      Atomic.ofThread (ownThread index) during = [] := by
    intro index hindex
    obtain ⟨hlookup, hseen⟩ := h.unseen index hindex
    exact hlogged.explains.ofThread_eq_nil hexplains hlookup (hvisible ▸ hseen)
  refine ⟨during, ⟨hexplains, fun index hindex => ?_⟩, hvisible, ?_, ?_⟩
  · have hindex : c.spawned + frames.length ≤ index := h.spawned ▸ hindex
    rw [Atomic.ofThread_append, hunseen index (.inr hindex), List.append_nil]
    exact hlogged.fresh index ((Nat.le_add_right _ _).trans hindex)
  · rw [List.map_map, List.forall₂_map_right_iff]
    refine forall₂_imp_of_mem (h.forall₂ hencode) fun x hx y hy hxy => ?_
    obtain ⟨hbytes, hindex⟩ := hxy
    have hfresh : Atomic.ofThread y.1.thread log = [] :=
      hlogged.fresh y.1.index (hindex ▸ List.le_snd_of_mem_zipIdx hx)
    obtain ⟨o, hseen⟩ := h.seen y hy
    obtain ⟨done, hcompleted, hreturns⟩ := hexplains.exists_completed (t := y.1.thread) (by
      rw [List.filter_append, Atomic.ofThread_append, hvisible, ← Atomic.ofThread_visible, hfresh]
      exact hseen)
    rw [Atomic.ofThread_append, hfresh, List.nil_append] at hcompleted
    obtain ⟨⟨requestId, command, payload⟩, index⟩ := x
    obtain ⟨hcommand, htags, hlength⟩ := hsendable _ (List.fst_mem_of_mem_zipIdx hx)
    obtain rfl : command = payload.command := hcommand
    obtain ⟨response, hr, hexecuted⟩ := executed_own hbytes htags hlength hreturns
    obtain ⟨task, r⟩ := y
    cases hr
    cases hindex
    exact ⟨o, task.frame, done, hbytes, hcompleted, hexecuted⟩
  · intro index hindex
    rw [hencode.length_eq] at hindex
    exact hunseen index hindex

/-- What comes of requests that arrive at a connection at rest: responses with their ids and
commands are written, in some order, and every log goes on with a part that shows how the requests
got them. -/
theorem Ready.answers (h : Ready alloc hash maxPayloadLen p c)
    (hwithin : ShardsWithin (valueBound maxPayloadLen) p.app.engine.shards)
    (hencode : List.Forall₂ (fun request bytes => encodeRequestFrame request = some bytes) requests
      frames) (hsendable : ∀ request ∈ requests, Sendable maxPayloadLen request) {cut : Cut}
    {run : List Connection.Action}
    (hfits : ∀ ev ∈ Machine.history (step alloc hash maxPayloadLen) (c.arrive cut frames.flatten)
      run, ev.before.batchFits alloc hash maxPayloadLen ev.action)
    (hcaught : ((c.arrive cut frames.flatten).run alloc hash maxPayloadLen run).CaughtUp) :
    Ready alloc hash maxPayloadLen p
        ((c.arrive cut frames.flatten).run alloc hash maxPayloadLen run) ∧
      ∃ answers encoded written, answers.map NativeClient.header =
          requests.map NativeClient.header ∧
        List.Forall₂ Encodes answers encoded ∧ encoded.Perm written ∧
        ((c.arrive cut frames.flatten).run alloc hash maxPayloadLen run).output.drop
          c.output.length = written.flatten ∧
        ∀ {shards log}, c.Logged alloc hash maxPayloadLen shards log → ∃ during,
          ((c.arrive cut frames.flatten).run alloc hash maxPayloadLen run).Logged alloc hash
            maxPayloadLen shards (log ++ during) ∧
          during.filter Atomic.Mark.visible = c.server.observed alloc hash maxPayloadLen
            ((c.arrive cut frames.flatten).threadActions alloc hash maxPayloadLen run) ∧
          c.ExecutedIn hash requests during (answers.map (·.payload)) := by
  have hown : ∀ frame ∈ frames, ∃ request, Sendable maxPayloadLen request ∧
      encodeRequestFrame request = some frame := by
    intro frame hframe
    obtain ⟨request, hrequest, hbytes⟩ := Delimited.exists_of_forall₂ hencode.flip hframe
    exact ⟨request, hsendable request hrequest, hbytes⟩
  obtain ⟨hready, ordered, written, hexchange⟩ := h.exchange hwithin
    (fun frame hframe => by
      obtain ⟨request, hsend, hbytes⟩ := hown frame hframe
      exact isFrame_of_encodeRequestFrame hbytes (by
        rw [encodeRequestPayload_eq]
        exact hsend.length))
    (fun frame hframe => by
      obtain ⟨request, -, hbytes⟩ := hown frame hframe
      exact (front_of_encodeRequestFrame hbytes).1)
    hfits hcaught
  obtain ⟨encoded, hencoded, hperm⟩ := hexchange.encoded
  refine ⟨hready, ordered.map Prod.snd, encoded, written, hexchange.map_header hencode, hencoded,
    hperm, ?_, fun hlogged => hexchange.executedIn (server_run ..) hencode hsendable hlogged⟩
  rw [hexchange.output, List.drop_left]

end

end
end Connection
end Server
end Cachebox
