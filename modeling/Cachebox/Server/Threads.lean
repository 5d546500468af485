import Cachebox.Server.Metrics
import Cachebox.Sharded.Linearizable

/-!
# Requests that are executed at the same time

The handlers of the connections, the tasks that they spawn and the expiration worker run in threads
of one process. `Work` is what is left to do of an execution of a frame: the thread decodes the
frame, runs the method of the engine, which takes a lock for each of its sections, and returns the
response. Between two sections of one thread any sections of others may run (`Pool.step`). Counting
and encoding touch nothing that other threads read, and are part of the section next to them. A
decoder that asks for more memory than the allocator has aborts the process, and no thread goes on.

On its own a thread does what `execute_native_frame_bytes_into` does (`finishes_frame`). Whatever
the interleaving, each request is made of atomic operations on shards (`implementation`).
-/

namespace Cachebox

namespace Call
variable {n : Nat}

theorem Sweep.part {indices : List (Fin n)} {budget removed : Nat}
    {effects : List (ShardOp n × Outcome)} (h : Sweep indices budget effects removed)
    (maxEntries : Nat) :
    ∀ x ∈ effects, ShardedEngine.Parts (.reclaimExpiredBudget maxEntries) x.1.2 := by
  induction h with
  | nil | spent => exact List.forall_mem_nil _
  | cons _ _ ih => exact List.forall_mem_cons.mpr ⟨⟨_, rfl⟩, ih⟩

/-- The operations of a method are parts of it. -/
theorem Returns.part [NeZero n] {hash : String → Bytes → Nat} {op : Op}
    {done : List (ShardOp n × Outcome)} {outcome : Outcome} (h : Returns hash op done outcome) :
    ∀ x ∈ done, ShardedEngine.Parts op x.1.2 := by
  cases op with
  | batchGet ns keys =>
    obtain ⟨reads, rfl, rfl, -⟩ := h
    intro x hx
    obtain ⟨read, hread, rfl⟩ := List.mem_map.mp hx
    exact ⟨read.1, List.mem_map_of_mem hread, rfl⟩
  | invalidateTag o ns tag =>
    obtain ⟨removals, -, rfl, -⟩ := h
    intro x hx
    obtain ⟨removal, -, rfl⟩ := List.mem_map.mp hx
    rfl
  | reclaimExpiredBudget maxEntries =>
    obtain ⟨removed, hsweep, -⟩ := h
    exact hsweep.part maxEntries
  | _ =>
    obtain ⟨id, hid, rfl⟩ := h
    intro x hx
    cases List.mem_singleton.mp hx
    rfl

/-- How many sections are left of a call at most. -/
def sections : Call n → Nat
  | .put .. | .completeLease .. | .delete .. => 2
  | .updateTagRoutes .. => 1
  | .invalidateTag .. => n + 1
  | .invalidateShards _ _ _ indices _ => indices.length
  | .get .. | .getRef .. | .getRefWithoutAccessUpdate .. | .startLease .. => 1
  | .batchGet _ keys _ => keys.length + 1
  | .reclaimShards indices _ _ => indices.length + 1

theorem sections_thenRoutes {i : Fin n} {routes : RouteUpdate} {outcome : Outcome} {call : Call n}
    (h : thenRoutes i routes outcome = .more call) : call.sections = 1 := by
  unfold thenRoutes at h
  split at h
  · cases h
  · cases h
    rfl

theorem sections_thenShards {o : IterOrder} {ns tag : String} {indices : List (Fin n)}
    {removed : Nat} {call : Call n} (h : thenShards o ns tag indices removed = .more call) :
    call.sections = indices.length := by
  unfold thenShards at h
  split at h
  · cases h
  · cases h
    rfl

theorem sections_lt [NeZero n] {hash : String → Bytes → Nat} {s : ShardedEngine n}
    {call call' : Call n} (h : (advance hash s call).1 = .more call') :
    call'.sections < call.sections := by
  cases call with
  | put | completeLease | delete => exact (sections_thenRoutes h).trans_lt Nat.one_lt_two
  | updateTagRoutes | get | getRef | getRefWithoutAccessUpdate | startLease => cases h
  | invalidateTag o ns tag =>
    have hnodup := (nodup_takeRoutes s o ⟨ns, tag⟩).1
    have hle := hnodup.length_le_card
    rw [Fintype.card_fin] at hle
    exact (sections_thenShards h).trans_lt (Nat.lt_succ_of_le hle)
  | invalidateShards o ns tag indices removed =>
    cases indices with
    | nil => cases h
    | cons i indices => exact (sections_thenShards h).trans_lt (Nat.lt_succ_self _)
  | batchGet ns keys outcomes =>
    cases keys with
    | nil => cases h
    | cons key keys =>
      cases h
      exact Nat.lt_succ_self _
  | reclaimShards indices remaining removed =>
    cases indices with
    | nil => cases h
    | cons i indices =>
      by_cases hzero : remaining = 0
      · subst hzero
        cases h
      · have hadvance : advance hash s (.reclaimShards (i :: indices) remaining removed) = _ :=
          if_neg hzero
        rw [hadvance] at h
        cases h
        exact Nat.lt_succ_self _

end Call

namespace Server
open Protocol BigEndian
open Call (ShardOp execOnShard)

/-! ## Threads -/

/-- The state that the threads share. -/
structure Process (n : Nat) where
  app : AppState n
  aborted : Bool

/-- What is left to do of the execution of a frame or of a tick of the expiration worker. -/
inductive Work (n : Nat) where
  | decode (o : IterOrder) (connectionId : UInt64) (frame : Bytes)
  | execute (metrics : Fin metricShardCount) (request : RequestFrame) (call : Call n)
  | reclaim (call : Call n)

/-- Decode a frame in a process with this allocator, or `none` if the process is aborted. Only the
owned decoder reserves, and it only runs on the frames that have no view. -/
def requestOn (alloc : Allocator) (frame : Bytes) (maxPayloadLen : Nat) :
    Option (Except DecodeError RequestFrame) :=
  match decodeBorrowedRequestFrame frame maxPayloadLen with
  | .ok (some request) => some (.ok request.toOwned)
  | .ok none => decodeRequestFrameOn alloc frame maxPayloadLen
  | .error error => some (.error error)

/-- What a thread leaves in its response buffer, or `none` if the encoder panics. -/
def encodeResponse : Option ResponseFrame → Option Bytes
  | some response => encodeResponseFrame response
  | none => some []

/-- The counters of the outcome with which a method returns. -/
def outcomeCounters {n : Nat} : Call.Progress n → List Counter
  | .more _ => []
  | .done outcome => answerCounters (outcomeResponse outcome)

namespace Work
variable {n : Nat}

def start : Action → Work n
  | .frame o connectionId bytes => .decode o connectionId bytes
  | .expirationTick maxEntriesPerTick => .reclaim (.ofOp (.reclaimExpiredBudget maxEntriesPerTick))

abbrev Progress (n : Nat) := Pool.Progress (Work n) (Option ResponseFrame)

/-- A request goes on with the next section of its method, or the response is there. -/
def thenRespond (metrics : Fin metricShardCount) (request : RequestFrame) :
    Call.Progress n → Progress n
  | .more call => .more (.execute metrics request call)
  | .done outcome => .done (some
    { requestId := request.requestId, command := request.command,
      payload := outcomeResponse outcome })

def thenReclaim : Call.Progress n → Progress n
  | .more call => .more (.reclaim call)
  | .done _ => .done none

variable [NeZero n] (alloc : Allocator) (hash : String → Bytes → Nat) (maxPayloadLen : Nat)

/-- Run the next section of a thread. -/
def advance (p : Process n) (work : Work n) : Progress n × Process n :=
  if p.aborted then (.more work, p)
  else
    match work with
    | .decode o connectionId frame =>
      match requestOn alloc frame maxPayloadLen with
      | none => (.more work, { p with aborted := true })
      | some (.error error) => (.done (nativeDecodeErrorResponse frame error), p)
      | some (.ok request) =>
        let metrics := shardForRequest connectionId request.requestId
        (.more (.execute metrics request (.ofOp (requestOp o request.payload))),
          { p with app := p.app.countAll metrics (commandCounter request.payload.command).toList })
    | .execute metrics request call =>
      let (progress, engine) := call.advance hash p.app.engine
      (thenRespond metrics request progress,
        { p with app := { p.app with engine }.countAll metrics (outcomeCounters progress) })
    | .reclaim call =>
      let (progress, engine) := call.advance hash p.app.engine
      (thenReclaim progress, { p with app := { p.app with engine } })

end Work

/-- The threads of a process. -/
abbrev Threads (n : Nat) := Pool.State (Process n) (Work n)

/-- The process when it starts. -/
def Threads.fromConfig {n : Nat} (clocks : Fin n → Clock) (limits : EngineLimits) : Threads n :=
  ⟨⟨.fromConfig clocks limits, false⟩, ∅⟩

/-- A thread starts to execute a frame or a tick, or runs a section. -/
abbrev Threads.step {n : Nat} [NeZero n] (alloc : Allocator) (hash : String → Bytes → Nat)
    (maxPayloadLen : Nat) (threads : Threads n) (action : Pool.Action Action) :
    Option (Option ResponseFrame) × Threads n :=
  Pool.step Work.start (Work.advance alloc hash maxPayloadLen) threads action

section
variable {n : Nat} {state : AppState n} {alloc : Allocator} {hash : String → Bytes → Nat}
  {maxPayloadLen : Nat}

/-! ## A thread on its own -/

@[simp] theorem AppState.engine_countAll (state : AppState n) (shard : Fin metricShardCount)
    (counters : List Counter) : (state.countAll shard counters).engine = state.engine := by
  induction counters generalizing state with
  | nil => rfl
  | cons counter counters ih => exact ih (state.count shard counter)

theorem AppState.countAll_append (state : AppState n) (shard : Fin metricShardCount)
    (counters counters' : List Counter) :
    state.countAll shard (counters ++ counters') =
      (state.countAll shard counters).countAll shard counters' :=
  List.foldl_append ..

theorem AppState.eq_of_engine_of_metrics {state state' : AppState n}
    (hengine : state.engine = state'.engine) (hmetrics : state.metrics = state'.metrics) :
    state = state' := by
  cases state
  cases hengine
  cases hmetrics
  rfl

theorem requestOn_eq (alloc : Allocator) (frame : Bytes) (maxPayloadLen : Nat) :
    requestOn alloc frame maxPayloadLen =
      if alloc.Serves (decodeRequestFrameReserving frame maxPayloadLen).log then
        some (decodeRequestFrame frame maxPayloadLen)
      else none := by
  unfold requestOn
  cases hborrowed : decodeBorrowedRequestFrame frame maxPayloadLen with
  | error e =>
    rw [log_eq_nil_of_borrowed (by rw [hborrowed]; simp), if_pos (by simp [Allocator.Serves]),
      decodeRequestFrame_of_borrowed_error hborrowed]
  | ok view =>
    cases view with
    | none => exact decodeRequestFrameOn_eq
    | some view =>
      rw [log_eq_nil_of_borrowed (by rw [hborrowed]; simp), if_pos (by simp [Allocator.Serves]),
        decodeRequestFrame_of_borrowed hborrowed]

variable [NeZero n]

/-- The sections of a method, run in a row. -/
theorem finishes_call {call : Call n} {outcome : Outcome} {engine engine' : ShardedEngine n}
    (h : Pool.Finishes (Call.advance hash) engine call outcome engine')
    (metrics : Fin metricShardCount) (request : RequestFrame) (app : AppState n) :
    Pool.Finishes (Work.advance alloc hash maxPayloadLen) ⟨{ app with engine }, false⟩
      (.execute metrics request call)
      (some ⟨request.requestId, request.command, outcomeResponse outcome⟩)
      ⟨{ app with engine := engine' }.countAll metrics (answerCounters (outcomeResponse outcome)),
        false⟩ := by
  induction h with
  | done hadvance =>
    refine .done ?_
    simp only [Work.advance, hadvance]
    rfl
  | more hadvance _ ih =>
    refine .more ?_ ih
    simp only [Work.advance, hadvance]
    rfl

/-- The handlers count the request, run its method and count the answer. -/
theorem app_executeNativePayloadWithMetrics (app : AppState n) (o : IterOrder)
    (metrics : Fin metricShardCount) (payload : RequestPayload) :
    (executeNativePayloadWithMetrics hash o app metrics payload).2 =
      { app.countAll metrics (commandCounter payload.command).toList with
        engine := (app.engine.exec hash (requestOp o payload)).2 }.countAll metrics
          (answerCounters (outcomeResponse (app.engine.exec hash (requestOp o payload)).1)) := by
  refine AppState.eq_of_engine_of_metrics ?_ ?_
  · rw [AppState.engine_countAll]
    exact (executeNativePayloadWithMetrics_eq ..).2
  · rw [metrics_executeNativePayloadWithMetrics, requestCounters, AppState.countAll_append]
    refine metrics_countAll_congr ?_ _
    rfl

/-- A thread that no other thread interleaves with executes its frame as
`execute_native_frame_bytes_into` does, or it aborts the process. -/
theorem finishes_frame (app : AppState n) (o : IterOrder) (connectionId : UInt64) (frame : Bytes) :
    match executeNativeFrameBytesOn hash o alloc app frame maxPayloadLen connectionId [] with
    | some (bytes, app') => ∃ response, encodeResponse response = bytes ∧
      Pool.Finishes (Work.advance alloc hash maxPayloadLen) ⟨app, false⟩
        (.decode o connectionId frame) response ⟨app', false⟩
    | none => Work.advance alloc hash maxPayloadLen ⟨app, false⟩ (.decode o connectionId frame) =
      (.more (.decode o connectionId frame), ⟨app, true⟩) := by
  rw [executeNativeFrameBytesOn_eq]
  have hrequest := requestOn_eq alloc frame maxPayloadLen
  by_cases hserves : alloc.Serves (decodeRequestFrameReserving frame maxPayloadLen).log
  · rw [if_pos hserves] at hrequest ⊢
    cases hdecode : decodeRequestFrame frame maxPayloadLen with
    | error e =>
      rw [executeNativeFrameBytesInto_of_error hdecode]
      refine ⟨nativeDecodeErrorResponse frame e, ?_, .done ?_⟩
      · rw [encodeDecodeError]
        cases nativeDecodeErrorResponse frame e with
        | none => rfl
        | some response => exact (encodeResponseFrameInto_eq ..).symm
      · simp only [Work.advance, hrequest, hdecode]
        rfl
    | ok request =>
      rw [executeNativeFrameBytesInto_of_ok hdecode]
      have hrest := @finishes_call n alloc hash maxPayloadLen _ _ _ _ _
        (Call.finishes_exec hash app.engine (requestOp o request.payload))
        (shardForRequest connectionId request.requestId) request
        (app.countAll (shardForRequest connectionId request.requestId)
          (commandCounter request.payload.command).toList)
      rw [← app_executeNativePayloadWithMetrics] at hrest
      refine ⟨_, ?_, .more ?_ hrest⟩
      · rw [← (executeNativePayloadWithMetrics_eq app _ _).1]
        rfl
      · have happ : app.countAll (shardForRequest connectionId request.requestId)
            (commandCounter request.payload.command).toList = { app.countAll _ _ with
              engine := app.engine } := AppState.eq_of_engine_of_metrics (by simp) rfl
        simp only [Work.advance, hrequest, hdecode]
        rw [← happ]
        rfl
  · rw [if_neg hserves] at hrequest ⊢
    simp only [Work.advance, hrequest]
    rfl

/-! ## Requests are made of operations on shards -/

/-- The operations on shards that an execution consists of, and its response. -/
inductive Returns (hash : String → Bytes → Nat) (maxPayloadLen : Nat) :
    Action → List (ShardOp n × Outcome) → Option ResponseFrame → Prop
  | request {o : IterOrder} {connectionId : UInt64} {frame : Bytes} {request : RequestFrame}
    {done : List (ShardOp n × Outcome)} {outcome : Outcome} :
    decodeRequestFrame frame maxPayloadLen = .ok request →
    Call.Returns hash (requestOp o request.payload) done outcome →
    Returns hash maxPayloadLen (.frame o connectionId frame) done
      (some ⟨request.requestId, request.command, outcomeResponse outcome⟩)
  | rejected {o : IterOrder} {connectionId : UInt64} {frame : Bytes} {e : DecodeError} :
    decodeRequestFrame frame maxPayloadLen = .error e →
    Returns hash maxPayloadLen (.frame o connectionId frame) [] (nativeDecodeErrorResponse frame e)
  | tick {maxEntriesPerTick : Nat} {done : List (ShardOp n × Outcome)} {outcome : Outcome} :
    Call.Returns hash (.reclaimExpiredBudget maxEntriesPerTick) done outcome →
    Returns hash maxPayloadLen (.expirationTick maxEntriesPerTick) done none

namespace Work

/-- What can be left to do of an execution after some operations on shards. -/
inductive Does (hash : String → Bytes → Nat) (maxPayloadLen : Nat) :
    Work n → Action → List (ShardOp n × Outcome) → Prop
  | decode {o : IterOrder} {connectionId : UInt64} {frame : Bytes} :
    Does hash maxPayloadLen (.decode o connectionId frame) (.frame o connectionId frame) []
  | execute {o : IterOrder} {connectionId : UInt64} {frame : Bytes} {request : RequestFrame}
    {metrics : Fin metricShardCount} {call : Call n} {done : List (ShardOp n × Outcome)} :
    decodeRequestFrame frame maxPayloadLen = .ok request →
    Call.Does hash call (requestOp o request.payload) done →
    Does hash maxPayloadLen (.execute metrics request call) (.frame o connectionId frame) done
  | reclaim {maxEntriesPerTick : Nat} {call : Call n} {done : List (ShardOp n × Outcome)} :
    Call.Does hash call (.reclaimExpiredBudget maxEntriesPerTick) done →
    Does hash maxPayloadLen (.reclaim call) (.expirationTick maxEntriesPerTick) done

theorem does_start (action : Action) :
    Does hash maxPayloadLen (start action : Work n) action [] := by
  cases action with
  | frame o connectionId bytes => exact .decode
  | expirationTick maxEntriesPerTick => exact .reclaim (.start _)

theorem exists_returns {work : Work n} {action : Action} {done : List (ShardOp n × Outcome)}
    (h : Does hash maxPayloadLen work action done) :
    ∃ rest response, Returns hash maxPayloadLen action (done ++ rest) response := by
  cases h with
  | @decode o connectionId frame =>
    cases hdecode : decodeRequestFrame frame maxPayloadLen with
    | error e => exact ⟨[], _, .rejected hdecode⟩
    | ok request =>
      obtain ⟨rest, outcome, hreturns⟩ :=
        Call.exists_returns (@Call.Does.start n _ hash (requestOp o request.payload))
      exact ⟨rest, _, .request hdecode hreturns⟩
  | execute hdecode hdoes =>
    obtain ⟨rest, outcome, hreturns⟩ := Call.exists_returns hdoes
    exact ⟨rest, _, .request hdecode hreturns⟩
  | reclaim hdoes =>
    obtain ⟨rest, outcome, hreturns⟩ := Call.exists_returns hdoes
    exact ⟨rest, _, .tick hreturns⟩

abbrev Continues (hash : String → Bytes → Nat) (maxPayloadLen : Nat) (action : Action)
    (done : List (ShardOp n × Outcome)) : Progress n → Prop :=
  Atomic.Continues (Does hash maxPayloadLen) (Returns hash maxPayloadLen) action done

theorem continues_thenRespond {o : IterOrder} {frame : Bytes} {request : RequestFrame}
    (hdecode : decodeRequestFrame frame maxPayloadLen = .ok request) (connectionId : UInt64)
    (metrics : Fin metricShardCount) {done : List (ShardOp n × Outcome)}
    {progress : Call.Progress n}
    (h : Call.Continues hash (requestOp o request.payload) done progress) :
    Continues hash maxPayloadLen (.frame o connectionId frame) done
      (thenRespond metrics request progress) := by
  cases progress with
  | more call => exact .execute hdecode h
  | done outcome => exact .request hdecode h

theorem continues_thenReclaim {maxEntriesPerTick : Nat} {done : List (ShardOp n × Outcome)}
    {progress : Call.Progress n}
    (h : Call.Continues hash (.reclaimExpiredBudget maxEntriesPerTick) done progress) :
    Continues hash maxPayloadLen (.expirationTick maxEntriesPerTick) done
      (thenReclaim progress) := by
  cases progress with
  | more call => exact .reclaim h
  | done outcome => exact .tick h

/-- A section runs at most one operation on a shard. -/
theorem runs_of_does (p : Process n) {work : Work n} {action : Action}
    {done : List (ShardOp n × Outcome)} (h : Does hash maxPayloadLen work action done) :
    ((advance alloc hash maxPayloadLen p work).2.app.engine.shards = p.app.engine.shards ∧
        Continues hash maxPayloadLen action done (advance alloc hash maxPayloadLen p work).1) ∨
      ∃ atom, (advance alloc hash maxPayloadLen p work).2.app.engine.shards =
          (execOnShard p.app.engine.shards atom).2 ∧
        Continues hash maxPayloadLen action
          (done ++ [(atom, (execOnShard p.app.engine.shards atom).1)])
          (advance alloc hash maxPayloadLen p work).1 := by
  unfold advance
  split
  · exact .inl ⟨rfl, h⟩
  cases h with
  | @decode o connectionId frame =>
    refine .inl ?_
    dsimp only
    rw [requestOn_eq]
    split_ifs
    · cases hdecode : decodeRequestFrame frame maxPayloadLen with
      | error e => exact ⟨rfl, .rejected hdecode⟩
      | ok request =>
        dsimp only
        rw [AppState.engine_countAll]
        exact ⟨rfl, .execute hdecode (.start _)⟩
    · exact ⟨rfl, .decode⟩
  | @execute o connectionId frame request metrics call done hdecode hdoes =>
    dsimp only
    rw [AppState.engine_countAll]
    rcases Call.runs_of_does p.app.engine hdoes with ⟨hshards, hnext⟩ | ⟨atom, hshards, hnext⟩
    · exact .inl ⟨hshards, continues_thenRespond hdecode connectionId metrics hnext⟩
    · exact .inr ⟨atom, hshards, continues_thenRespond hdecode connectionId metrics hnext⟩
  | reclaim hdoes =>
    rcases Call.runs_of_does p.app.engine hdoes with ⟨hshards, hnext⟩ | ⟨atom, hshards, hnext⟩
    · exact .inl ⟨hshards, continues_thenReclaim hnext⟩
    · exact .inr ⟨atom, hshards, continues_thenReclaim hnext⟩

/-- The executions of a server consist of operations on the shards of its engine. -/
def implementation (alloc : Allocator) (hash : String → Bytes → Nat) (maxPayloadLen : Nat) :
    Atomic.Implementation (@start n) (advance alloc hash maxPayloadLen) execOnShard
      (Returns (n := n) hash maxPayloadLen) where
  view p := p.app.engine.shards
  Does := Does hash maxPayloadLen
  start := does_start
  completes := exists_returns
  advance := runs_of_does

end Work

/-! ## The responses -/

/-- The shards are consistent, and their values leave room for the fields around them. -/
def ShardsWithin (bound : Nat) (shards : Fin n → Engine) : Prop :=
  ∀ i, (shards i).Inv ∧ (shards i).ValuesWithin bound

/-- An operation has had the outcome that it has on shards that are within the bound. -/
def Real (bound : Nat) (x : ShardOp n × Outcome) : Prop :=
  ∃ shards, ShardsWithin bound shards ∧ (execOnShard shards x.1).1 = x.2

omit [NeZero n] in
theorem shardsWithin_fromConfig (clocks : Fin n → Clock) (limits : EngineLimits) {bound : Nat} :
    ShardsWithin bound (AppState.fromConfig clocks limits).engine.shards :=
  within_fromConfig clocks limits

omit [NeZero n] in
theorem ShardsWithin.exec {bound : Nat} {shards : Fin n → Engine} (h : ShardsWithin bound shards)
    {atom : ShardOp n} (hatom : atom.2.WritesWithin bound) :
    ShardsWithin bound (execOnShard shards atom).2 := by
  intro i
  show (Function.update shards atom.1 _ i).Inv ∧ (Function.update shards atom.1 _ i).ValuesWithin _
  rw [Function.update_apply]
  split
  · exact ⟨(h _).1.exec atom.2, Engine.valuesWithin_exec (h _).1 (h _).2 hatom⟩
  · exact h i

omit [NeZero n] in
theorem Real.exists_engine {bound : Nat} {i : Fin n} {op : Op} {outcome : Outcome}
    (h : Real bound ((i, op), outcome)) :
    ∃ e : Engine, e.ValuesWithin bound ∧ outcome = (e.exec op).1 := by
  obtain ⟨shards, hshards, heq⟩ := h
  exact ⟨shards i, (hshards i).2, heq.symm⟩

/-- A request writes values that are within the limit on payloads. -/
theorem Returns.writesWithin {action : Action} {done : List (ShardOp n × Outcome)}
    {response : Option ResponseFrame} (h : Returns hash maxPayloadLen action done response) :
    ∀ x ∈ done, x.1.2.WritesWithin (valueBound maxPayloadLen) := by
  cases h with
  | @request o _ _ _ _ _ hdecode hreturns =>
    exact fun x hx => (writesWithin_requestOp o hdecode).part (hreturns.part x hx)
  | rejected => exact List.forall_mem_nil _
  | tick hreturns =>
    intro x hx
    refine Op.WritesWithin.part ?_ (hreturns.part x hx)
    trivial

/-- All that the threads have done was done on shards within the bound. -/
theorem real_of_explains {shards : Fin n → Engine}
    {log : List (Atomic.Mark Action (ShardOp n) Outcome (Option ResponseFrame))}
    {threads : Threads n}
    (h : (Work.implementation alloc hash maxPayloadLen).Explains shards log threads)
    (hshards : ShardsWithin (valueBound maxPayloadLen) shards) :
    ∀ x ∈ Atomic.effects log, Real (valueBound maxPayloadLen) x := by
  obtain ⟨_, hlog, -⟩ := h
  exact (hlog.real_effects hshards (fun _ _ _ hreturns => hreturns.writesWithin)
    fun _ _ hatom hwithin => hwithin.exec hatom).2

theorem outcomeOf_returns {op : Op} {done : List (ShardOp n × Outcome)} {outcome : Outcome}
    (h : Call.Returns hash op done outcome) {bound : Nat} (hreal : ∀ x ∈ done, Real bound x) :
    OutcomeOf op outcome := by
  cases op with
  | batchGet ns keys =>
    obtain ⟨reads, -, -, rfl⟩ := h
    trivial
  | invalidateTag o ns tag =>
    obtain ⟨removals, -, -, rfl⟩ := h
    trivial
  | reclaimExpiredBudget maxEntries =>
    obtain ⟨removed, -, rfl⟩ := h
    trivial
  | _ =>
    obtain ⟨id, hid, rfl⟩ := h
    obtain ⟨e, -, rfl⟩ := (hreal _ (List.mem_singleton_self _)).exists_engine
    trivial

/-- A response that is not the answer to a batch fits its length field. -/
theorem length_returns_lt {o : IterOrder} {payload : RequestPayload}
    {done : List (ShardOp n × Outcome)} {outcome : Outcome}
    (h : Call.Returns hash (requestOp o payload) done outcome)
    (hreal : ∀ x ∈ done, Real (valueBound maxPayloadLen) x)
    (hbatch : ∀ items, outcomeResponse outcome ≠ .batchGet items) :
    (encodeResponsePayload (outcomeResponse outcome) []).length < 2 ^ 32 := by
  have hone : ∀ {id : EntryId}, (∀ ns keys, payload ≠ .batchGet ns keys) →
      done = [((ShardedEngine.shardIndexFor hash id.ns id.key, requestOp o payload), outcome)] →
      (encodeResponsePayload (outcomeResponse outcome) []).length < 2 ^ 32 := by
    intro id hpayload hdone
    obtain ⟨e, he, rfl⟩ := (hreal _ (hdone ▸ List.mem_singleton_self _)).exists_engine
    exact length_exec_lt he (valueBound_add_lt maxPayloadLen) o hpayload
  cases payload with
  | batchGet ns keys =>
    obtain ⟨reads, -, -, rfl⟩ := h
    exact absurd rfl (hbatch _)
  | tagInvalidate ns tag =>
    obtain ⟨removals, -, -, rfl⟩ := h
    simp [length_encodeResponsePayload, outcomeResponse]
  | _ =>
    obtain ⟨id, -, hdone⟩ := h
    exact hone (by simp) hdone

omit [NeZero n] in
theorem length_lt_of_isFrame {frame : Bytes} (h : (nativeFraming maxPayloadLen).IsFrame frame) :
    frame.length < 2 ^ 64 := by
  obtain ⟨hlen, -⟩ := isFrame_iff.mp h
  have hlt : payloadLen frame < 256 ^ 4 := by
    refine (ofBytes_lt _).trans_le (Nat.pow_le_pow_right (by decide) ?_)
    simp
  simp only [headerLen] at hlen
  omega

/-- The execution of a frame with the magic gives a response that carries its request id and its
command and is of a documented kind. It fits its length field, unless it is the answer to a
batch. -/
theorem Returns.exists_response {o : IterOrder} {connectionId : UInt64} {frame : Bytes}
    {done : List (ShardOp n × Outcome)} {response : Option ResponseFrame}
    (h : Returns hash maxPayloadLen (.frame o connectionId frame) done response)
    (hframe : (nativeFraming maxPayloadLen).IsFrame frame) (hmagic : magic <+: frame)
    (hreal : ∀ x ∈ done, Real (valueBound maxPayloadLen) x) :
    ∃ r, response = some r ∧ r.requestId = UInt64.ofNat (ofBytes (frame.extract 8 16)) ∧
      (∀ command, Command.fromId (frame.getD 6 0) = .ok command → r.command = command) ∧
      Documented r.command r.payload ∧
      ((∀ items, r.payload ≠ .batchGet items) →
        (encodeResponsePayload r.payload []).length < 2 ^ 32) := by
  obtain ⟨hlen, -⟩ := isFrame_iff.mp hframe
  cases h with
  | @request _ _ _ request _ outcome hdecode hreturns =>
    obtain ⟨hid, hcommand⟩ := header_of_decodeRequestFrame hdecode
    refine ⟨_, rfl, hid, fun command h => ?_, ?_, length_returns_lt hreturns hreal⟩
    · rw [hcommand] at h
      cases h
      rfl
    · rw [(decodeRequestFrame_iff.mp hdecode).1.command_eq]
      exact documented_of_outcomeOf (outcomeOf_returns hreturns hreal)
  | @rejected _ _ _ e hdecode =>
    obtain ⟨r, hr, hid, hcommand, hpayload⟩ :=
      nativeDecodeErrorResponse_eq_some (by omega) hmagic e
    refine ⟨r, hr, hid, hcommand, ?_, fun _ => ?_⟩
    · rw [hpayload]
      exact documented_error ..
    · rw [hpayload]
      exact length_decodeError_lt (length_lt_of_isFrame hframe) hdecode

/-! ## Threads finish, unless the process is aborted -/

namespace Work

/-- How many sections the execution of a frame has at most. The iteration order does not matter. -/
def frameSections (n maxPayloadLen : Nat) (frame : Bytes) : Nat :=
  match decodeRequestFrame frame maxPayloadLen with
  | .ok request => (Call.ofOp (n := n) (requestOp .asStored request.payload)).sections + 1
  | .error _ => 1

/-- How many sections are left of an execution at most. -/
def sections (maxPayloadLen : Nat) : Work n → Nat
  | .decode _ _ frame => frameSections n maxPayloadLen frame
  | .execute _ _ call => call.sections
  | .reclaim call => call.sections

omit [NeZero n] in
theorem sections_requestOp (o : IterOrder) (payload : RequestPayload) :
    (Call.ofOp (n := n) (requestOp o payload)).sections =
      (Call.ofOp (n := n) (requestOp .asStored payload)).sections := by
  cases payload <;> rfl

omit [NeZero n] in
theorem thenRespond_eq_more {metrics : Fin metricShardCount} {request : RequestFrame}
    {progress : Call.Progress n} {work : Work n} :
    thenRespond metrics request progress = .more work ↔
      ∃ call, progress = .more call ∧ .execute metrics request call = work := by
  cases progress <;> simp [thenRespond]

omit [NeZero n] in
theorem thenReclaim_eq_more {progress : Call.Progress n} {work : Work n} :
    thenReclaim progress = .more work ↔ ∃ call, progress = .more call ∧ .reclaim call = work := by
  cases progress <;> simp [thenReclaim]

theorem sections_lt {p : Process n} {work work' : Work n}
    (h : (advance alloc hash maxPayloadLen p work).1 = .more work')
    (hp : (advance alloc hash maxPayloadLen p work).2.aborted = false) :
    work'.sections maxPayloadLen < work.sections maxPayloadLen := by
  unfold advance at h hp
  split at h
  next haborted =>
    rw [if_pos haborted, haborted] at hp
    cases hp
  next haborted =>
    rw [if_neg haborted] at hp
    cases work with
    | decode o connectionId frame =>
      dsimp only at h hp
      rw [requestOn_eq] at h hp
      split_ifs at h hp
      · cases hdecode : decodeRequestFrame frame maxPayloadLen with
        | error e =>
          rw [hdecode] at h
          cases h
        | ok request =>
          rw [hdecode] at h
          cases h
          simp only [sections, frameSections, hdecode, sections_requestOp o]
          exact Nat.lt_succ_self _
    | execute metrics request call =>
      obtain ⟨call', hmore, rfl⟩ := thenRespond_eq_more.mp h
      exact Call.sections_lt hmore
    | reclaim call =>
      obtain ⟨call', hmore, rfl⟩ := thenReclaim_eq_more.mp h
      exact Call.sections_lt hmore

/-- The allocator has room for what the decoder reserves. -/
def Served (alloc : Allocator) (maxPayloadLen : Nat) : Work n → Prop
  | .decode _ _ frame => alloc.Serves (decodeRequestFrameReserving frame maxPayloadLen).log
  | _ => True

theorem advance_of_served {p : Process n} (hp : p.aborted = false) {work : Work n}
    (h : work.Served alloc maxPayloadLen) :
    (advance alloc hash maxPayloadLen p work).2.aborted = false ∧
      ∀ work', (advance alloc hash maxPayloadLen p work).1 = .more work' →
        work'.Served alloc maxPayloadLen := by
  unfold advance
  rw [if_neg (by simp [hp])]
  cases work with
  | decode o connectionId frame =>
    have hserves : alloc.Serves (decodeRequestFrameReserving frame maxPayloadLen).log := h
    dsimp only
    rw [requestOn_eq, if_pos hserves]
    cases decodeRequestFrame frame maxPayloadLen with
    | error e => exact ⟨hp, fun work' hwork' => by cases hwork'⟩
    | ok request =>
      refine ⟨hp, fun work' hwork' => ?_⟩
      cases hwork'
      trivial
  | execute metrics request call =>
    refine ⟨hp, fun work' hwork' => ?_⟩
    obtain ⟨call', -, rfl⟩ := thenRespond_eq_more.mp hwork'
    trivial
  | reclaim call =>
    refine ⟨hp, fun work' hwork' => ?_⟩
    obtain ⟨call', -, rfl⟩ := thenReclaim_eq_more.mp hwork'
    trivial

end Work

/-- The process goes on, and nothing that is to be decoded will abort it. -/
structure Threads.Alive (alloc : Allocator) (maxPayloadLen : Nat) (threads : Threads n) : Prop where
  running : threads.shared.aborted = false
  served : ∀ work, threads.Pending work → work.Served alloc maxPayloadLen

/-- The counts in the frame that a thread begins to execute fit. -/
def Threads.CountsFit (maxPayloadLen : Nat) : Pool.Action Action → Prop
  | .call _ (.frame _ _ bytes) => Protocol.CountsFit kindRequest RequestFront bytes maxPayloadLen
  | _ => True

omit [NeZero n] in
theorem served_of_countsFit (halloc : ∀ count ≤ maxPayloadLen, alloc count = true) {t : Nat}
    {op : Action} (h : Threads.CountsFit maxPayloadLen (.call t op)) :
    (Work.start op : Work n).Served alloc maxPayloadLen := by
  cases op with
  | frame o connectionId bytes => exact serves_request halloc h
  | expirationTick maxEntriesPerTick => trivial

/-- Frames whose counts fit do not abort a process that has room for as many elements as a payload
may have bytes. -/
theorem Threads.Alive.step {threads : Threads n} (h : threads.Alive alloc maxPayloadLen)
    (halloc : ∀ count ≤ maxPayloadLen, alloc count = true) {action : Pool.Action Action}
    (haction : Threads.CountsFit maxPayloadLen action) :
    (threads.step alloc hash maxPayloadLen action).2.Alive alloc maxPayloadLen := by
  have hinv := @Pool.step_invariant _ _ _ _ Work.start (Work.advance alloc hash maxPayloadLen)
    (fun p pending => p.aborted = false ∧
      ∀ work, pending work → Work.Served alloc maxPayloadLen work) threads action
    (fun t op ht => ⟨h.running, ?_⟩) (fun t work _ hl => ?_) ⟨h.running, h.served⟩
  · exact ⟨hinv.1, hinv.2⟩
  · rintro work (rfl | hwork)
    · exact served_of_countsFit halloc (ht ▸ haction)
    · exact h.served work hwork
  · obtain ⟨hrunning, hnext⟩ := @Work.advance_of_served n alloc hash maxPayloadLen _ threads.shared
      h.running work (h.served work ⟨t, hl⟩)
    refine ⟨hrunning, ?_⟩
    have hothers : ∀ work', threads.Others t work' → work'.Served alloc maxPayloadLen := by
      rintro work' ⟨t', -, ht'⟩
      exact h.served work' ⟨t', ht'⟩
    cases hprogress : (Work.advance alloc hash maxPayloadLen threads.shared work).1 with
    | done response => exact hothers
    | more work' =>
      rintro work'' (rfl | hwork'')
      · exact hnext _ hprogress
      · exact hothers work'' hwork''

omit [NeZero n] in
theorem Threads.alive_fromConfig (clocks : Fin n → Clock) (limits : EngineLimits) :
    (Threads.fromConfig clocks limits).Alive alloc maxPayloadLen where
  running := rfl
  served work hwork := by
    obtain ⟨t, ht⟩ := hwork
    cases ht

/-- How many sections thread `t` has left at most. -/
def Threads.sectionsLeft (maxPayloadLen : Nat) (threads : Threads n) (t : Nat) : Nat :=
  ((threads.calls.lookup t).map (Work.sections maxPayloadLen)).getD 0

section
variable {threads : Threads n} {t : Nat}

theorem Threads.sectionsLeft_step_of_ne {action : Pool.Action Action} (ht : action.thread ≠ t) :
    (threads.step alloc hash maxPayloadLen action).2.sectionsLeft maxPayloadLen t =
      threads.sectionsLeft maxPayloadLen t := by
  rw [sectionsLeft, sectionsLeft, Pool.lookup_step_of_ne ht]

theorem Threads.sectionsLeft_call (h : threads.calls.lookup t = none) (o : IterOrder)
    (connectionId : UInt64) (frame : Bytes) :
    (threads.step alloc hash maxPayloadLen (.call t (.frame o connectionId frame))).2.sectionsLeft
      maxPayloadLen t = Work.frameSections n maxPayloadLen frame := by
  rw [sectionsLeft, Threads.step, Pool.step_call_of_none h, HashMap.lookup_insert', if_pos rfl]
  rfl

theorem Threads.sectionsLeft_advance_lt {work : Work n} (h : threads.calls.lookup t = some work)
    (hresult : (threads.step alloc hash maxPayloadLen (.advance t)).1 = none)
    (hrunning : (threads.step alloc hash maxPayloadLen (.advance t)).2.shared.aborted = false) :
    (threads.step alloc hash maxPayloadLen (.advance t)).2.sectionsLeft maxPayloadLen t <
      threads.sectionsLeft maxPayloadLen t := by
  rw [Threads.step, Pool.step_advance_of_some h] at hresult hrunning ⊢
  cases hprogress : (Work.advance alloc hash maxPayloadLen threads.shared work).1 with
  | done response =>
    rw [hprogress] at hresult
    cases hresult
  | more work' =>
    have hlt := Work.sections_lt hprogress hrunning
    rw [sectionsLeft, sectionsLeft, h, Pool.Progress.update, HashMap.lookup_insert', if_pos rfl]
    exact hlt

end
end
end Server
end Cachebox
