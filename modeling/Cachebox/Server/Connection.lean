import Cachebox.Server.Framing
import Cachebox.Server.Threads

/-!
# A native connection

`handle_native_connection` reads frames and executes them itself, one after the other, until it
finds several frames in its buffer at once. From then on the connection is pipelined: every frame is
executed by a task of its own, at most `maxInFlightPerConnection` at a time, the tasks send their
responses through a channel, and a writer task takes them out and writes them.

A connection is a state that the handler, the tasks and the writer change in turns, together with
the other threads of the server: a frame is executed in sections, and between two of them anything
else may happen. A list of actions is an interleaving of all of them. When the process is aborted,
nothing happens any more. The sockets do not fail.
-/

namespace Cachebox
namespace Server
open Protocol BigEndian

def maxInFlightPerConnection : Nat := 128
def maxResponseWriteBatchFrames : Nat := 32
def maxResponseWriteBatchBytes : Nat := 64 * 1024

/-! ## The writer -/

/-- The loop of `coalesce_native_responses`: take responses off the channel while the batch is
small. -/
def coalesceFrom (batch : Bytes) (frames : Nat) : List Bytes → Bytes × List Bytes
  | [] => (batch, [])
  | response :: channel =>
    if frames < maxResponseWriteBatchFrames ∧ batch.length < maxResponseWriteBatchBytes then
      let exceedsBatchBytes := batch.length + response.length > maxResponseWriteBatchBytes
      if exceedsBatchBytes then (batch ++ response, channel)
      else coalesceFrom (batch ++ response) (frames + 1) channel
    else (batch, response :: channel)

/-- Returns the bytes to write and what stays in the channel. -/
def coalesceNativeResponses (first : Bytes) (channel : List Bytes) : Bytes × List Bytes :=
  coalesceFrom first 1 channel

/-- A batch is made of whole responses, in their order. -/
theorem coalesceFrom_eq (batch : Bytes) (frames : Nat) (channel : List Bytes) :
    ∃ taken, channel = taken ++ (coalesceFrom batch frames channel).2 ∧
      (coalesceFrom batch frames channel).1 = batch ++ taken.flatten := by
  induction channel generalizing batch frames with
  | nil => exact ⟨[], rfl, (List.append_nil batch).symm⟩
  | cons response channel ih =>
    simp only [coalesceFrom]
    split
    · split
      · exact ⟨[response], rfl, by simp⟩
      · obtain ⟨taken, hchannel, hbatch⟩ := ih (batch ++ response) (frames + 1)
        refine ⟨response :: taken, congrArg (response :: ·) hchannel, ?_⟩
        rw [hbatch, List.flatten_cons, List.append_assoc]
    · exact ⟨[], rfl, (List.append_nil batch).symm⟩

/-! ## The connection -/

/-- Where the handler of a connection is. -/
inductive Phase where
  | reading
  /-- Behind its loop, waiting for the writer. -/
  | finishing
  /-- Unwound by a panic while it executed `frame`. -/
  | panicked (frame : Bytes)
  deriving DecidableEq

/-- The frame at which the handler was unwound. -/
def Phase.lost : Phase → List Bytes
  | .panicked frame => [frame]
  | _ => []

/-- The execution of a frame, with its number among the frames of the connection. -/
structure Task where
  index : Nat
  frame : Bytes
  deriving DecidableEq

/-- The thread in which a frame of the connection is executed. -/
def ownThread (index : Nat) : Nat := 2 * index

abbrev Task.thread (task : Task) : Nat := ownThread task.index

/-- What a thread that is not one of the connection does. -/
def elsewhere : Pool.Action Server.Action → Pool.Action Server.Action
  | .call t op => .call (2 * t + 1) op
  | .advance t => .advance (2 * t + 1)

structure Connection (n : Nat) where
  connectionId : UInt64
  server : Threads n
  /-- What is still to be received. -/
  reads : List Bytes
  readBuffer : Bytes
  pipelined : Bool
  phase : Phase
  /-- The frames that have been read and not begun. -/
  frames : List Bytes
  /-- The executions in progress, on the task of the handler or on tasks of their own. -/
  tasks : List Task
  /-- How many executions have begun. -/
  spawned : Nat
  /-- The responses of the tasks that wait for room in the channel. -/
  sending : List Bytes
  channel : List Bytes
  /-- The bytes written so far. -/
  output : Bytes
  /-- All frames that `read_native_frame_ranges` has returned. -/
  extracted : List Bytes

namespace Connection

/-- What the parts of a connection and the rest of the server do. Where an execution begins, the
iteration order of the hash tables is an argument. -/
inductive Action where
  | receive
  | spawn (o : IterOrder)
  | advance (task : Nat)
  | send (task : Nat)
  | write
  | serve (action : Pool.Action Server.Action)

section
variable {n : Nat}

/-- The start of `handle_native_connection`. -/
def start (connectionId : UInt64) (server : Threads n) (reads : List Bytes) : Connection n where
  connectionId := connectionId
  server := server
  reads := reads
  readBuffer := []
  pipelined := false
  phase := .reading
  frames := []
  tasks := []
  spawned := 0
  sending := []
  channel := []
  output := []
  extracted := []

/-- How many executions there may be at a time. The handler itself has one. -/
def width (c : Connection n) : Nat := if c.pipelined then maxInFlightPerConnection else 1

/-- The handler reads on when it has executed its frame, or begun tasks for all its frames. -/
def receive (maxPayloadLen : Nat) (c : Connection n) : Connection n :=
  if c.phase ≠ .reading ∨ c.frames ≠ [] ∨ c.pipelined = false ∧ c.tasks ≠ [] then c
  else
    match readNativeFrameRanges maxPayloadLen c.reads c.readBuffer with
    | (none, reads, readBuffer) => { c with reads, readBuffer, phase := .finishing }
    | (some ranges, reads, readBuffer) =>
      let frames := ranges.map (Range.slice readBuffer)
      { c with
        reads
        readBuffer := drainFrameRanges readBuffer ranges
        pipelined := c.pipelined || decide (ranges.length > 1)
        frames
        extracted := c.extracted ++ frames }

/-- A task sends its response, if there is room, and gives its permit back. -/
def send (task : Nat) (c : Connection n) : Connection n :=
  match c.sending[task]? with
  | none => c
  | some response =>
    if c.channel.length < maxInFlightPerConnection then
      { c with sending := c.sending.eraseIdx task, channel := c.channel ++ [response] }
    else c

/-- The writer takes what waits in the channel and writes it. -/
def write (c : Connection n) : Connection n :=
  match c.channel with
  | [] => c
  | first :: channel =>
    let (response, channel) := coalesceNativeResponses first channel
    { c with channel, output := c.output ++ response }

/-- An execution has come to its end. A task goes on to send the response, and the handler writes
it; a panic of the encoder ends the task or unwinds the handler. -/
def finish (task : Nat) (frame : Bytes) (response : Option Bytes) (c : Connection n) :
    Connection n :=
  let tasks := c.tasks.eraseIdx task
  match response with
  | some response =>
    if c.pipelined then { c with tasks, sending := c.sending ++ [response] }
    else { c with tasks, output := c.output ++ response }
  | none =>
    if c.pipelined then { c with tasks }
    else { c with tasks, phase := .panicked frame }

variable [NeZero n] (alloc : Allocator) (hash : String → Bytes → Nat) (maxPayloadLen : Nat)

/-- The execution of the next frame begins, if there is a permit. -/
def spawn (o : IterOrder) (c : Connection n) : Connection n :=
  match c.frames with
  | [] => c
  | frame :: frames =>
    if c.tasks.length + c.sending.length < c.width then
      { c with
        frames
        tasks := c.tasks ++ [⟨c.spawned, frame⟩]
        spawned := c.spawned + 1
        server := (c.server.step alloc hash maxPayloadLen
          (.call (ownThread c.spawned) (.frame o c.connectionId frame))).2 }
    else c

/-- A section of an execution. -/
def advance (task : Nat) (c : Connection n) : Connection n :=
  match c.tasks[task]? with
  | none => c
  | some t =>
    let (result, server) := c.server.step alloc hash maxPayloadLen (.advance t.thread)
    match result with
    | none => { c with server }
    | some response => { c with server }.finish task t.frame (encodeResponse response)

def step (c : Connection n) (action : Action) : Unit × Connection n :=
  if c.server.shared.aborted then ((), c)
  else
    match action with
    | .receive => ((), c.receive maxPayloadLen)
    | .spawn o => ((), c.spawn alloc hash maxPayloadLen o)
    | .advance task => ((), c.advance alloc hash maxPayloadLen task)
    | .send task => ((), c.send task)
    | .write => ((), c.write)
    | .serve action =>
      ((), { c with server := (c.server.step alloc hash maxPayloadLen (elsewhere action)).2 })

abbrev run (c : Connection n) (actions : List Action) : Connection n :=
  Machine.run (step alloc hash maxPayloadLen) c actions

/-- A new connection to a server that has been running for a while. -/
def accept (clocks : Fin n → Clock) (limits : EngineLimits)
    (earlier : List (Pool.Action Server.Action)) (connectionId : UInt64) (reads : List Bytes) :
    Connection n :=
  start connectionId (Machine.run (Threads.step alloc hash maxPayloadLen)
    (.fromConfig clocks limits) (earlier.map elsewhere)) reads

end

/-! ## What the threads of the server do -/

section
variable {n : Nat}

/-- The part that is to act has nothing to do or has to wait. -/
def Blocked (c : Connection n) : Action → Prop
  | .receive => c.phase ≠ .reading ∨ c.frames ≠ [] ∨ c.pipelined = false ∧ c.tasks ≠ []
  | .spawn _ => c.frames = [] ∨ c.width ≤ c.tasks.length + c.sending.length
  | .advance task => c.tasks[task]? = none
  | .send task => c.sending[task]? = none ∨ maxInFlightPerConnection ≤ c.channel.length
  | .write => c.channel = []
  | .serve _ => False

/-- The action of a thread in a step of the connection. -/
def threadAction (c : Connection n) (action : Action) : Option (Pool.Action Server.Action) :=
  if c.server.shared.aborted then none
  else
    match action with
    | .spawn o =>
      match c.frames with
      | [] => none
      | frame :: _ =>
        if c.tasks.length + c.sending.length < c.width then
          some (.call (ownThread c.spawned) (.frame o c.connectionId frame))
        else none
    | .advance task => c.tasks[task]?.map fun t => .advance t.thread
    | .serve action => some (elsewhere action)
    | .receive | .send _ | .write => none

variable [NeZero n] (alloc : Allocator) (hash : String → Bytes → Nat) (maxPayloadLen : Nat)

/-- The execution that comes to its end in a step, with its response. -/
def finishing (c : Connection n) (action : Action) : List (Task × Option ResponseFrame) :=
  if c.server.shared.aborted then []
  else
    match action with
    | .advance task =>
      match c.tasks[task]? with
      | none => []
      | some t => ((c.server.step alloc hash maxPayloadLen (.advance t.thread)).1.map (t, ·)).toList
    | _ => []

/-- What a step can do, with the action of a thread in it and the execution that ends in it. -/
inductive Moves (c : Connection n) : Action → Option (Pool.Action Server.Action) →
    List (Task × Option ResponseFrame) → Connection n → Prop
  | idle {action : Action} : c.server.shared.aborted = true ∨ c.Blocked action →
    Moves c action none [] c
  | close {reads : List Bytes} {readBuffer : Bytes} : c.phase = .reading → c.frames = [] →
    (c.pipelined = false → c.tasks = []) →
    readNativeFrameRanges maxPayloadLen c.reads c.readBuffer = (none, reads, readBuffer) →
    Moves c .receive none [] { c with reads, readBuffer, phase := .finishing }
  | read {ranges : List Range} {reads : List Bytes} {readBuffer : Bytes} : c.phase = .reading →
    c.frames = [] → (c.pipelined = false → c.tasks = []) →
    readNativeFrameRanges maxPayloadLen c.reads c.readBuffer = (some ranges, reads, readBuffer) →
    Moves c .receive none []
      { c with
        reads
        readBuffer := drainFrameRanges readBuffer ranges
        pipelined := c.pipelined || decide (ranges.length > 1)
        frames := ranges.map (Range.slice readBuffer)
        extracted := c.extracted ++ ranges.map (Range.slice readBuffer) }
  | spawn {o : IterOrder} {frame : Bytes} {frames : List Bytes} : c.frames = frame :: frames →
    c.tasks.length + c.sending.length < c.width →
    Moves c (.spawn o) (some (.call (ownThread c.spawned) (.frame o c.connectionId frame))) []
      { c with
        frames
        tasks := c.tasks ++ [⟨c.spawned, frame⟩]
        spawned := c.spawned + 1
        server := (c.server.step alloc hash maxPayloadLen
          (.call (ownThread c.spawned) (.frame o c.connectionId frame))).2 }
  | work {task : Nat} {t : Task} : c.tasks[task]? = some t →
    (c.server.step alloc hash maxPayloadLen (.advance t.thread)).1 = none →
    Moves c (.advance task) (some (.advance t.thread)) []
      { c with server := (c.server.step alloc hash maxPayloadLen (.advance t.thread)).2 }
  | finish {task : Nat} {t : Task} {response : Option ResponseFrame} : c.tasks[task]? = some t →
    (c.server.step alloc hash maxPayloadLen (.advance t.thread)).1 = some response →
    Moves c (.advance task) (some (.advance t.thread)) [(t, response)]
      ({ c with
          server := (c.server.step alloc hash maxPayloadLen (.advance t.thread)).2 }.finish task
        t.frame (encodeResponse response))
  | send {task : Nat} {response : Bytes} : c.sending[task]? = some response →
    c.channel.length < maxInFlightPerConnection →
    Moves c (.send task) none []
      { c with sending := c.sending.eraseIdx task, channel := c.channel ++ [response] }
  | write {first : Bytes} {channel taken rest : List Bytes} : c.channel = first :: channel →
    channel = taken ++ rest →
    Moves c .write none []
      { c with channel := rest, output := c.output ++ first ++ taken.flatten }
  | serve {action : Pool.Action Server.Action} :
    Moves c (.serve action) (some (elsewhere action)) []
    { c with server := (c.server.step alloc hash maxPayloadLen (elsewhere action)).2 }

variable {alloc} {hash} {maxPayloadLen} {c : Connection n}

theorem step_of_aborted (h : c.server.shared.aborted = true) (action : Action) :
    (c.step alloc hash maxPayloadLen action).2 = c := by
  unfold step
  rw [if_pos h]

theorem moves_receive : Moves alloc hash maxPayloadLen c .receive none []
    (c.receive maxPayloadLen) := by
  unfold receive
  split
  next hguard => exact .idle (.inr hguard)
  next hguard =>
    rw [not_or, not_not, not_or, not_not, not_and, not_not] at hguard
    obtain ⟨hphase, hframes, htasks⟩ := hguard
    rcases hread : readNativeFrameRanges maxPayloadLen c.reads c.readBuffer with
      ⟨_ | ranges, reads, readBuffer⟩
    · exact .close hphase hframes htasks hread
    · exact .read hphase hframes htasks hread

theorem moves_write : Moves alloc hash maxPayloadLen c .write none [] c.write := by
  unfold write
  split
  next hchannel => exact .idle (.inr hchannel)
  next first channel hchannel =>
    obtain ⟨taken, hrest, hbatch⟩ := coalesceFrom_eq first 1 channel
    have h := @Moves.write n _ alloc hash maxPayloadLen c first channel taken _ hchannel hrest
    rw [List.append_assoc, ← hbatch] at h
    exact h

theorem moves_step (c : Connection n) (action : Action) :
    Moves alloc hash maxPayloadLen c action (c.threadAction action)
      (c.finishing alloc hash maxPayloadLen action) (c.step alloc hash maxPayloadLen action).2 := by
  unfold step threadAction finishing
  split
  next haborted => exact .idle (.inl haborted)
  cases action with
  | receive => exact moves_receive
  | spawn o =>
    unfold Connection.spawn
    dsimp only
    cases hframes : c.frames with
    | nil => exact .idle (.inr (.inl hframes))
    | cons frame frames =>
      dsimp only
      split
      next hroom => exact .spawn hframes hroom
      next hfull => exact .idle (.inr (.inr (Nat.le_of_not_lt hfull)))
  | advance task =>
    unfold Connection.advance
    dsimp only
    cases htask : c.tasks[task]? with
    | none => exact .idle (.inr htask)
    | some t =>
      dsimp only
      cases hresult : (c.server.step alloc hash maxPayloadLen (.advance t.thread)).1 with
      | none => exact .work htask hresult
      | some response => exact .finish htask hresult
  | send task =>
    unfold Connection.send
    dsimp only
    cases hresponse : c.sending[task]? with
    | none => exact .idle (.inr (.inl hresponse))
    | some response =>
      dsimp only
      split
      next hroom => exact .send hresponse hroom
      next hfull => exact .idle (.inr (.inr (Nat.le_of_not_lt hfull)))
  | write => exact moves_write
  | serve action => exact .serve

theorem Moves.server {action : Action} {threadAction : Option (Pool.Action Server.Action)}
    {finishing : List (Task × Option ResponseFrame)} {c' : Connection n}
    (h : Moves alloc hash maxPayloadLen c action threadAction finishing c') :
    c'.server = Machine.run (Threads.step alloc hash maxPayloadLen) c.server
      threadAction.toList := by
  cases h with
  | finish =>
    unfold Connection.finish
    dsimp only
    split <;> split <;> rfl
  | _ => rfl

theorem Moves.connectionId {action : Action} {threadAction : Option (Pool.Action Server.Action)}
    {finishing : List (Task × Option ResponseFrame)} {c' : Connection n}
    (h : Moves alloc hash maxPayloadLen c action threadAction finishing c') :
    c'.connectionId = c.connectionId := by
  cases h with
  | finish =>
    unfold Connection.finish
    dsimp only
    split <;> split <;> rfl
  | _ => rfl

/-! ## Which frames are answered -/

/-- `response` is one response frame, with the request id of `frame`. -/
def Answers (frame response : Bytes) : Prop :=
  response.length = headerLen + payloadLen response ∧
    ∃ r : ResponseFrame, r.requestId = UInt64.ofNat (ofBytes (frame.extract 8 16)) ∧
      ∀ max, payloadLen response ≤ max → decodeResponseFrame response max = .ok r

/-- The frames in `answered` have got the responses in `responses`, of which those in `written` have
been written; the other frames wait for their execution or are being executed, or the handler was
unwound at them. -/
structure Accounts {n : Nat} (c : Connection n) (answered responses written : List Bytes) :
    Prop where
  answers : List.Forall₂ Answers answered responses
  responses : responses.Perm (written ++ c.channel ++ c.sending)
  output : c.output = written.flatten
  extracted : c.extracted.Perm (answered ++ c.tasks.map Task.frame ++ c.frames ++ c.phase.lost)

/-- No frame and no response is on its way. -/
def Settled {n : Nat} (c : Connection n) : Prop :=
  c.frames = [] ∧ c.tasks = [] ∧ c.sending = [] ∧ c.channel = []

instance {n : Nat} (c : Connection n) : Decidable c.Settled :=
  inferInstanceAs (Decidable (_ ∧ _ ∧ _ ∧ _))

/-- The output is one response for each frame, but for the frame at which the connection was
closed. -/
def EachAnswered {n : Nat} (c : Connection n) : Prop :=
  ∃ frames responses, c.extracted.Perm (frames ++ c.phase.lost) ∧
    List.Forall₂ Answers frames responses ∧ c.output = responses.flatten

omit [NeZero n] in
theorem Accounts.eachAnswered {answered responses written : List Bytes}
    (h : c.Accounts answered responses written) (hsettled : c.Settled) : c.EachAnswered := by
  obtain ⟨hframes, htasks, hsending, hchannel⟩ := hsettled
  have hresponses := h.responses
  have hextracted := h.extracted
  rw [hchannel, hsending, List.append_nil, List.append_nil] at hresponses
  rw [htasks, hframes, List.map_nil, List.append_nil, List.append_nil] at hextracted
  -- the responses were written in the order of `written`
  have hcomp : Relation.Comp (List.Forall₂ Answers) List.Perm answered written :=
    ⟨responses, h.answers, hresponses⟩
  rw [List.forall₂_comp_perm_eq_perm_comp_forall₂] at hcomp
  obtain ⟨frames, hframes, hanswers⟩ := hcomp
  exact ⟨frames, written, hextracted.trans (hframes.append_right _), hanswers, h.output⟩

end
end Connection
end Server
end Cachebox
