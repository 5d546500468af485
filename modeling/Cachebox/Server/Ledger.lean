import Cachebox.Server.Connection

/-!
# What a connection executes

The executions of a connection are threads of the server among others. The ledger of a connection
relates what is seen of its threads to its state: each frame that it has begun is executed by a
thread of its own, which has made one call and is running it or has returned from it, and the
responses of those that have returned are written, in the channel, or waiting for room there.

No request is swallowed: every frame has exactly one response or is on its way to it.
-/

namespace Cachebox
namespace Server
open Protocol BigEndian
open Call (ShardOp)

/-- What is logged of the threads of the server. -/
abbrev Threads.Mark (n : Nat) := Atomic.Mark Action (ShardOp n) Outcome (Option ResponseFrame)

section
variable {n : Nat} [NeZero n] (alloc : Allocator) (hash : String → Bytes → Nat)
  (maxPayloadLen : Nat)

/-- What is seen of the threads. -/
abbrev Threads.observed (threads : Threads n) (actions : List (Pool.Action Action)) :
    List (Threads.Mark n) :=
  Atomic.observed Work.start (Work.advance alloc hash maxPayloadLen) threads actions

/-- What is seen of one thread since the process was in state `p`. -/
abbrev Threads.seen (p : Process n) (actions : List (Pool.Action Action)) (t : Nat) :
    List (Threads.Mark n) :=
  Atomic.seen Work.start (Work.advance alloc hash maxPayloadLen) p actions t

end

theorem ownThread_ne {i j : Nat} (h : i ≠ j) : ownThread i ≠ ownThread j := by
  unfold ownThread
  omega

theorem thread_elsewhere_ne (action : Pool.Action Action) (index : Nat) :
    (elsewhere action).thread ≠ ownThread index := by
  cases action with
  | call t op | advance t =>
    show 2 * t + 1 ≠ 2 * index
    omega

/-- The executions of frames, in their order. -/
def numbered (frames : List Bytes) : List Task := frames.mapIdx Task.mk

theorem numbered_concat (frames : List Bytes) (frame : Bytes) :
    numbered (frames ++ [frame]) = numbered frames ++ [⟨frames.length, frame⟩] :=
  List.mapIdx_concat

theorem map_frame_numbered (frames : List Bytes) : (numbered frames).map Task.frame = frames := by
  induction frames using List.reverseRecOn with
  | nil => rfl
  | append_singleton frames frame ih =>
    rw [numbered_concat, List.map_append, ih]
    rfl

theorem map_index_numbered (frames : List Bytes) :
    (numbered frames).map Task.index = List.range frames.length := by
  induction frames using List.reverseRecOn with
  | nil => rfl
  | append_singleton frames frame ih =>
    rw [numbered_concat, List.map_append, ih, List.length_append, List.length_singleton,
      List.range_succ]
    rfl

namespace Connection
variable {n : Nat} [NeZero n]

/-! ## The threads of a connection -/

/-- The interleaving `actions` of the threads, since the process was in state `p`, has led to `c`,
and the executions in `finished` have come to their end. -/
structure Executes (alloc : Allocator) (hash : String → Bytes → Nat) (maxPayloadLen : Nat)
    (p : Process n) (actions : List (Pool.Action Server.Action))
    (finished : List (Task × Option ResponseFrame)) (c : Connection n) : Prop where
  server : c.server = Machine.run (Threads.step alloc hash maxPayloadLen) ⟨p, ∅⟩ actions
  complete : ∀ frame ∈ c.extracted, (nativeFraming maxPayloadLen).IsFrame frame
  begun : ∃ begun, c.extracted = begun ++ c.frames ∧ begun.length = c.spawned ∧
    (c.tasks ++ finished.map Prod.fst).Perm (numbered begun)
  running : ∀ task ∈ c.tasks, ∃ o, Threads.seen alloc hash maxPayloadLen p actions task.thread =
    [.call task.thread (.frame o c.connectionId task.frame)]
  returned : ∀ x ∈ finished, ∃ o, Threads.seen alloc hash maxPayloadLen p actions x.1.thread =
    [.call x.1.thread (.frame o c.connectionId x.1.frame), .returned x.1.thread x.2]
  unseen : ∀ index ≥ c.spawned,
    Threads.seen alloc hash maxPayloadLen p actions (ownThread index) = []

section
variable {alloc : Allocator} {hash : String → Bytes → Nat} {maxPayloadLen : Nat} {p : Process n}
  {actions : List (Pool.Action Server.Action)} {finished : List (Task × Option ResponseFrame)}
  {c c' : Connection n}

namespace Executes

/-- The operations on shards that the threads have run. -/
theorem exists_log (h : Executes alloc hash maxPayloadLen p actions finished c) :
    ∃ log, (Work.implementation alloc hash maxPayloadLen).Explains p.app.engine.shards log
        c.server ∧
      log.filter Atomic.Mark.visible =
        Threads.observed alloc hash maxPayloadLen ⟨p, ∅⟩ actions := by
  obtain ⟨log, hlog, hvisible⟩ :=
    ((Work.implementation alloc hash maxPayloadLen).explains_start p).run actions
  rw [h.server]
  exact ⟨log, hlog, hvisible⟩

theorem lookup_eq_none (h : Executes alloc hash maxPayloadLen p actions finished c) {index : Nat}
    (hindex : c.spawned ≤ index) : c.server.calls.lookup (ownThread index) = none := by
  obtain ⟨log, hlog, hvisible⟩ := h.exists_log
  refine hlog.lookup_eq_none fun op => ?_
  have hunseen : Atomic.ofThread (ownThread index) _ = [] := h.unseen index hindex
  rw [hvisible, hunseen]
  simp

/-- A running task has work to do in the pool. -/
theorem exists_work (h : Executes alloc hash maxPayloadLen p actions finished c) {task : Task}
    (htask : task ∈ c.tasks) : ∃ work, c.server.calls.lookup task.thread = some work := by
  obtain ⟨log, hlog, hvisible⟩ := h.exists_log
  obtain ⟨o, hseen⟩ := h.running task htask
  obtain ⟨work, done, hwork, -⟩ := hlog.exists_call (t := task.thread) (by
    rw [hvisible]
    exact hseen)
  exact ⟨work, hwork⟩

/-- No two executions have the same number. -/
theorem nodup (h : Executes alloc hash maxPayloadLen p actions finished c) :
    ((c.tasks ++ finished.map Prod.fst).map Task.index).Nodup := by
  obtain ⟨begun, -, -, hperm⟩ := h.begun
  rw [(hperm.map Task.index).nodup_iff, map_index_numbered]
  exact List.nodup_range

theorem index_lt (h : Executes alloc hash maxPayloadLen p actions finished c) :
    ∀ task ∈ c.tasks ++ finished.map Prod.fst, task.index < c.spawned := by
  intro task htask
  obtain ⟨begun, -, hlen, hperm⟩ := h.begun
  have hmem := List.mem_map_of_mem (f := Task.index) (hperm.subset htask)
  rw [map_index_numbered, List.mem_range, hlen] at hmem
  exact hmem

theorem mem_extracted (h : Executes alloc hash maxPayloadLen p actions finished c)
    {task : Task} (htask : task ∈ c.tasks ++ finished.map Prod.fst) :
    task.frame ∈ c.extracted := by
  obtain ⟨begun, hbegun, -, hperm⟩ := h.begun
  have hmem := List.mem_map_of_mem (f := Task.frame) (hperm.subset htask)
  rw [map_frame_numbered] at hmem
  exact hbegun ▸ List.mem_append_left _ hmem

/-- The other executions have other numbers. -/
theorem index_ne (h : Executes alloc hash maxPayloadLen p actions finished c) {i : Nat} {t : Task}
    (ht : c.tasks[i]? = some t) :
    ∀ task ∈ c.tasks.eraseIdx i ++ finished.map Prod.fst, t.index ≠ task.index := by
  intro task htask heq
  obtain ⟨hlt, hget⟩ := List.getElem?_eq_some_iff.mp ht
  have herase := (List.getElem_cons_eraseIdx_perm hlt).append_right (finished.map Prod.fst)
  have hnodup := ((herase.map Task.index).nodup_iff).mpr h.nodup
  rw [hget, List.cons_append, List.map_cons, List.nodup_cons] at hnodup
  exact hnodup.1 (heq ▸ List.mem_map_of_mem htask)

theorem congr (h : Executes alloc hash maxPayloadLen p actions finished c)
    (hid : c'.connectionId = c.connectionId) (hserver : c'.server = c.server)
    (hextracted : c'.extracted = c.extracted) (hframes : c'.frames = c.frames)
    (htasks : c'.tasks = c.tasks) (hspawned : c'.spawned = c.spawned) :
    Executes alloc hash maxPayloadLen p actions finished c' := by
  obtain ⟨h₁, h₂, h₃, h₄, h₅, h₆⟩ := h
  rw [← hid] at h₄ h₅
  rw [← hspawned] at h₃ h₆
  rw [← htasks] at h₃ h₄
  rw [← hextracted, ← hframes] at h₃
  exact ⟨hserver.trans h₁, hextracted ▸ h₂, h₃, h₄, h₅, h₆⟩

/-- An action that is not seen of the threads of the connection. -/
theorem of_unseen (h : Executes alloc hash maxPayloadLen p actions finished c)
    {action : Pool.Action Server.Action}
    (hseen : ∀ index, Threads.seen alloc hash maxPayloadLen p (actions ++ [action])
      (ownThread index) = Threads.seen alloc hash maxPayloadLen p actions (ownThread index)) :
    Executes alloc hash maxPayloadLen p (actions ++ [action]) finished
      { c with server := (c.server.step alloc hash maxPayloadLen action).2 } where
  server := by rw [Machine.run_concat, ← h.server]
  complete := h.complete
  begun := h.begun
  running task htask := by
    rw [hseen]
    exact h.running task htask
  returned x hx := by
    rw [hseen]
    exact h.returned x hx
  unseen index hindex := by
    rw [hseen]
    exact h.unseen index hindex

theorem read (h : Executes alloc hash maxPayloadLen p actions finished c) (hframes : c.frames = [])
    {frames : List Bytes}
    (hcomplete : ∀ frame ∈ frames, (nativeFraming maxPayloadLen).IsFrame frame)
    (hid : c'.connectionId = c.connectionId) (hserver : c'.server = c.server)
    (hextracted : c'.extracted = c.extracted ++ frames) (hframes' : c'.frames = frames)
    (htasks : c'.tasks = c.tasks) (hspawned : c'.spawned = c.spawned) :
    Executes alloc hash maxPayloadLen p actions finished c' := by
  obtain ⟨h₁, h₂, ⟨begun, hbegun, hlen, hperm⟩, h₄, h₅, h₆⟩ := h
  rw [hframes, List.append_nil] at hbegun
  rw [← hid] at h₄ h₅
  rw [← hspawned] at hlen h₆
  rw [← htasks] at hperm h₄
  refine ⟨hserver.trans h₁, ?_, ⟨begun, ?_, hlen, hperm⟩, h₄, h₅, h₆⟩
  · rw [hextracted]
    exact List.forall_mem_append.mpr ⟨h₂, hcomplete⟩
  · rw [hextracted, hframes', hbegun]

/-- A thread of its own begins to execute the next frame. -/
theorem spawn (h : Executes alloc hash maxPayloadLen p actions finished c) {o : IterOrder}
    {frame : Bytes} {frames : List Bytes} (hframes : c.frames = frame :: frames) :
    Executes alloc hash maxPayloadLen p
      (actions ++ [.call (ownThread c.spawned) (.frame o c.connectionId frame)]) finished
      { c with
        frames
        tasks := c.tasks ++ [⟨c.spawned, frame⟩]
        spawned := c.spawned + 1
        server := (c.server.step alloc hash maxPayloadLen
          (.call (ownThread c.spawned) (.frame o c.connectionId frame))).2 } := by
  have hidle := h.lookup_eq_none (le_refl c.spawned)
  rw [h.server] at hidle
  have hother : ∀ index, index ≠ c.spawned → Threads.seen alloc hash maxPayloadLen p
      (actions ++ [.call (ownThread c.spawned) (.frame o c.connectionId frame)])
      (ownThread index) = Threads.seen alloc hash maxPayloadLen p actions (ownThread index) :=
    fun index hindex => Atomic.seen_concat_of_ne (ownThread_ne hindex.symm)
  have hlt := h.index_lt
  refine ⟨?_, h.complete, ?_, ?_, ?_, ?_⟩
  · rw [Machine.run_concat, ← h.server]
  · obtain ⟨begun, hbegun, hlen, hperm⟩ := h.begun
    refine ⟨begun ++ [frame], ?_, ?_, ?_⟩
    · rw [hbegun, hframes, List.append_assoc, List.singleton_append]
    · rw [List.length_append, hlen]
      rfl
    · rw [numbered_concat, hlen, List.append_assoc]
      refine (List.Perm.append_left _ List.perm_append_comm).trans ?_
      rw [← List.append_assoc]
      exact hperm.append_right _
  · rw [List.forall_mem_append, List.forall_mem_singleton]
    refine ⟨fun task htask => ?_, o, ?_⟩
    · have hne := (hlt task (List.mem_append_left _ htask)).ne
      rw [Task.thread, hother task.index hne]
      exact h.running task htask
    · rw [Threads.seen, Atomic.seen_call hidle]
      exact congrArg (· ++ _) (h.unseen c.spawned le_rfl)
  · intro x hx
    have hne := (hlt x.1 (List.mem_append_right _ (List.mem_map_of_mem hx))).ne
    rw [Task.thread, hother x.1.index hne]
    exact h.returned x hx
  · intro index hindex
    have hlt : c.spawned < index := hindex
    rw [hother index hlt.ne']
    exact h.unseen index hlt.le

/-- A thread returns. -/
theorem finish (h : Executes alloc hash maxPayloadLen p actions finished c) {i : Nat} {t : Task}
    (ht : c.tasks[i]? = some t) {response : Option ResponseFrame}
    (hresult : (c.server.step alloc hash maxPayloadLen (.advance t.thread)).1 = some response)
    (hid : c'.connectionId = c.connectionId)
    (hserver : c'.server = (c.server.step alloc hash maxPayloadLen (.advance t.thread)).2)
    (hextracted : c'.extracted = c.extracted) (hframes : c'.frames = c.frames)
    (htasks : c'.tasks = c.tasks.eraseIdx i) (hspawned : c'.spawned = c.spawned) :
    Executes alloc hash maxPayloadLen p (actions ++ [.advance t.thread])
      (finished ++ [(t, response)]) c' := by
  obtain ⟨hi, hget⟩ := List.getElem?_eq_some_iff.mp ht
  have hmem : t ∈ c.tasks := hget ▸ List.getElem_mem hi
  have hne := h.index_ne ht
  have hother : ∀ index, t.index ≠ index → Threads.seen alloc hash maxPayloadLen p
      (actions ++ [.advance t.thread]) (ownThread index) =
        Threads.seen alloc hash maxPayloadLen p actions (ownThread index) :=
    fun index hindex => Atomic.seen_concat_of_ne (ownThread_ne hindex)
  refine ⟨?_, hextracted ▸ h.complete, ?_, ?_, ?_, ?_⟩
  · rw [hserver, Machine.run_concat, ← h.server]
  · obtain ⟨begun, hbegun, hlen, hperm⟩ := h.begun
    refine ⟨begun, ?_, hlen.trans hspawned.symm, ?_⟩
    · rw [hextracted, hframes, hbegun]
    · rw [htasks, List.map_append]
      refine List.Perm.trans ?_ hperm
      have herase := (List.getElem_cons_eraseIdx_perm hi).append_right (finished.map Prod.fst)
      rw [hget] at herase
      rw [← List.append_assoc]
      exact (List.perm_append_singleton t _).trans herase
  · rw [htasks, hid]
    intro task htask
    rw [Task.thread, hother task.index (hne task (List.mem_append_left _ htask))]
    exact h.running task (List.mem_of_mem_eraseIdx htask)
  · rw [hid, List.forall_mem_append, List.forall_mem_singleton]
    refine ⟨fun x hx => ?_, ?_⟩
    · rw [Task.thread,
        hother x.1.index (hne x.1 (List.mem_append_right _ (List.mem_map_of_mem hx)))]
      exact h.returned x hx
    · obtain ⟨o, hseen⟩ := h.running t hmem
      refine ⟨o, ?_⟩
      have hreturn := h.server ▸ hresult
      rw [Threads.seen, Atomic.seen_advance, hreturn]
      exact congrArg (· ++ _) hseen
  · intro index hindex
    rw [hspawned] at hindex
    have hlt := h.index_lt t (List.mem_append_left _ hmem)
    rw [hother index (by omega)]
    exact h.unseen index hindex

theorem of_moves (h : Executes alloc hash maxPayloadLen p actions finished c)
    {action : Connection.Action} {threadAction : Option (Pool.Action Server.Action)}
    {finishing : List (Task × Option ResponseFrame)}
    (hm : Moves alloc hash maxPayloadLen c action threadAction finishing c') :
    Executes alloc hash maxPayloadLen p (actions ++ threadAction.toList) (finished ++ finishing)
      c' := by
  cases hm with
  | idle | close | send | write =>
    rw [Option.toList_none, List.append_nil, List.append_nil]
    exact h.congr rfl rfl rfl rfl rfl rfl
  | read _ hframes _ hread =>
    rw [Option.toList_none, List.append_nil, List.append_nil]
    exact h.read hframes (fun frame hframe =>
      isFrame_iff.mpr ((frames_of_readNativeFrameRanges hread).2 frame hframe)) rfl rfl rfl rfl rfl
      rfl
  | spawn hframes =>
    rw [List.append_nil]
    exact h.spawn hframes
  | @work i t ht hresult =>
    rw [List.append_nil]
    refine h.of_unseen fun index => ?_
    by_cases hindex : t.index = index
    · subst hindex
      rw [Threads.seen, Atomic.seen_advance, ← h.server, hresult]
      exact List.append_nil _
    · exact Atomic.seen_concat_of_ne (ownThread_ne hindex)
  | finish ht hresult =>
    refine h.finish ht hresult ?_ ?_ ?_ ?_ ?_ ?_
    all_goals
      unfold Connection.finish
      dsimp only
      split <;> split <;> rfl
  | serve =>
    rw [List.append_nil]
    exact h.of_unseen fun index => Atomic.seen_concat_of_ne (thread_elsewhere_ne _ index)

end Executes

/-! ## The responses -/

/-- What an execution has left in its response buffer, or `none` if the encoder has unwound it. -/
def reply (x : Task × Option ResponseFrame) : Option Bytes := encodeResponse x.2

/-- The responses of the executions in `finished` are written, in the channel, or on their way to
it. -/
structure Pays (finished : List (Task × Option ResponseFrame)) (written : List Bytes)
    (c : Connection n) : Prop where
  responses : (finished.filterMap reply).Perm
    (written ++ c.channel ++ c.sending)
  output : c.output = written.flatten

/-- A handler that is not pipelined has one frame at a time, and one that was unwound has none. -/
structure Shape (c : Connection n) : Prop where
  inline : c.pipelined = false →
    c.sending = [] ∧ c.channel = [] ∧ c.frames.length + c.tasks.length ≤ 1
  last : c.pipelined = false → ∀ task ∈ c.tasks, ∃ earlier, c.extracted = earlier ++ [task.frame]
  closed : ∀ frame, c.phase = .panicked frame →
    c.frames = [] ∧ c.tasks = [] ∧ ∃ earlier, c.extracted = earlier ++ [frame]

omit [NeZero n] in
theorem Shape.not_panicked (h : c.Shape) {i : Nat} {t : Task} (ht : c.tasks[i]? = some t)
    (frame : Bytes) : c.phase ≠ .panicked frame := by
  intro hphase
  rw [(h.closed frame hphase).2.1] at ht
  cases ht

omit [NeZero n] in
theorem Shape.finish (h : c.Shape) {i : Nat} {t : Task} (ht : c.tasks[i]? = some t)
    (response : Option Bytes) (server : Threads n) :
    ({ c with server }.finish i t.frame response).Shape := by
  obtain ⟨hi, hget⟩ := List.getElem?_eq_some_iff.mp ht
  have herase := List.length_eraseIdx_of_lt hi
  have hphase : ∀ frame, c.phase ≠ .panicked frame := h.not_panicked ht
  unfold Connection.finish
  dsimp only
  cases hpipelined : c.pipelined with
  | true =>
    have hnever : ¬ true = false := by decide
    cases response with
    | none | some response =>
      exact ⟨fun hp => absurd hp hnever, fun hp => absurd hp hnever,
        fun frame hframe => absurd hframe (hphase frame)⟩
  | false =>
    obtain ⟨hsending, hchannel, hone⟩ := h.inline hpipelined
    have hinline : c.sending = [] ∧ c.channel = [] ∧
        c.frames.length + (c.tasks.eraseIdx i).length ≤ 1 := ⟨hsending, hchannel, by omega⟩
    have hlast : ∀ task ∈ c.tasks.eraseIdx i, ∃ earlier, c.extracted = earlier ++ [task.frame] :=
      fun task htask => h.last hpipelined task (List.mem_of_mem_eraseIdx htask)
    cases response with
    | some response =>
      exact ⟨fun _ => hinline, fun _ => hlast, fun frame hframe => absurd hframe (hphase frame)⟩
    | none =>
      refine ⟨fun _ => hinline, fun _ => hlast, fun frame hframe => ?_⟩
      cases hframe
      have hframes : c.frames.length = 0 := by omega
      have htasks : (c.tasks.eraseIdx i).length = 0 := by omega
      exact ⟨List.length_eq_zero_iff.mp hframes, List.length_eq_zero_iff.mp htasks,
        h.last hpipelined t (hget ▸ List.getElem_mem hi)⟩

theorem Shape.of_moves (h : c.Shape) (hbegun : ∃ begun, c.extracted = begun ++ c.frames)
    {action : Connection.Action} {threadAction : Option (Pool.Action Server.Action)}
    {finishing : List (Task × Option ResponseFrame)}
    (hm : Moves alloc hash maxPayloadLen c action threadAction finishing c') : c'.Shape := by
  cases hm with
  | idle => exact h
  | close => exact ⟨h.inline, h.last, fun frame hframe => by cases hframe⟩
  | @read ranges _ _ hphase _ htasks _ =>
    have hinline : (c.pipelined || decide (ranges.length > 1)) = false →
        c.pipelined = false ∧ ranges.length ≤ 1 := by
      rw [Bool.or_eq_false_iff, decide_eq_false_iff_not, not_lt]
      exact id
    refine ⟨fun hp => ?_, fun hp => ?_, fun frame hframe => ?_⟩
    · obtain ⟨hp, hone⟩ := hinline hp
      obtain ⟨hsending, hchannel, -⟩ := h.inline hp
      refine ⟨hsending, hchannel, ?_⟩
      rw [htasks hp, List.length_map, List.length_nil]
      exact hone
    · rw [htasks (hinline hp).1]
      exact List.forall_mem_nil _
    · exact absurd (hphase.symm.trans hframe) (by simp)
  | @spawn o frame frames hframes =>
    obtain ⟨begun, hbegun⟩ := hbegun
    refine ⟨fun hp => ?_, fun hp => ?_, fun frame' hframe' => ?_⟩
    · obtain ⟨hsending, hchannel, hone⟩ := h.inline hp
      rw [hframes, List.length_cons] at hone
      refine ⟨hsending, hchannel, ?_⟩
      show frames.length + (c.tasks ++ [_]).length ≤ 1
      rw [List.length_append, List.length_singleton]
      omega
    · obtain ⟨-, -, hone⟩ := h.inline hp
      rw [hframes, List.length_cons] at hone
      rw [List.length_eq_zero_iff.mp (show c.tasks.length = 0 by omega), List.nil_append,
        List.forall_mem_singleton]
      refine ⟨begun, ?_⟩
      rw [hbegun, hframes, List.length_eq_zero_iff.mp (show frames.length = 0 by omega)]
    · rw [(h.closed frame' hframe').1] at hframes
      cases hframes
  | work => exact ⟨h.inline, h.last, h.closed⟩
  | finish ht => exact h.finish ht _ _
  | send hresponse =>
    refine ⟨fun hp => ?_, h.last, h.closed⟩
    rw [(h.inline hp).1] at hresponse
    cases hresponse
  | write hchannel =>
    refine ⟨fun hp => ?_, h.last, h.closed⟩
    rw [(h.inline hp).2.1] at hchannel
    cases hchannel
  | serve => exact ⟨h.inline, h.last, h.closed⟩

omit [NeZero n] in
theorem Pays.finish {written : List Bytes} (h : c.Pays finished written) (hshape : c.Shape)
    (i : Nat) (t : Task) (response : Option ResponseFrame) (server : Threads n) :
    ∃ more, ({ c with server }.finish i t.frame (encodeResponse response)).Pays
      (finished ++ [(t, response)]) (written ++ more) := by
  have hresponses : ((finished ++ [(t, response)]).filterMap reply).Perm
      (written ++ c.channel ++ c.sending ++ (encodeResponse response).toList) := by
    rw [List.filterMap_append]
    refine h.responses.append ?_
    cases hencode : encodeResponse response <;> simp [reply, hencode]
  unfold Connection.finish
  dsimp only
  cases hencode : encodeResponse response with
  | none =>
    rw [hencode, Option.toList_none, List.append_nil] at hresponses
    refine ⟨[], ?_⟩
    rw [List.append_nil]
    cases c.pipelined with
    | true | false => exact ⟨hresponses, h.output⟩
  | some bytes =>
    rw [hencode, Option.toList_some] at hresponses
    cases hpipelined : c.pipelined with
    | true =>
      refine ⟨[], ?_, ?_⟩
      · rw [List.append_nil]
        exact hresponses.trans (.of_eq (List.append_assoc ..))
      · rw [List.append_nil]
        exact h.output
    | false =>
      obtain ⟨hsending, hchannel, -⟩ := hshape.inline hpipelined
      rw [hsending, hchannel] at hresponses
      refine ⟨[bytes], ?_, ?_⟩
      · show List.Perm _ (written ++ [bytes] ++ c.channel ++ c.sending)
        rw [hsending, hchannel]
        simpa using hresponses
      · show c.output ++ bytes = _
        rw [h.output, List.flatten_append, List.flatten_singleton]

theorem Pays.of_moves {written : List Bytes} (h : c.Pays finished written) (hshape : c.Shape)
    {action : Connection.Action} {threadAction : Option (Pool.Action Server.Action)}
    {finishing : List (Task × Option ResponseFrame)}
    (hm : Moves alloc hash maxPayloadLen c action threadAction finishing c') :
    ∃ more, c'.Pays (finished ++ finishing) (written ++ more) := by
  cases hm with
  | idle | close | read | spawn | work | serve =>
    refine ⟨[], ?_⟩
    rw [List.append_nil, List.append_nil]
    exact ⟨h.responses, h.output⟩
  | finish => exact h.finish hshape _ _ _ _
  | @send task response hresponse =>
    refine ⟨[], ?_⟩
    rw [List.append_nil, List.append_nil]
    refine ⟨h.responses.trans ?_, h.output⟩
    obtain ⟨hlt, rfl⟩ := List.getElem?_eq_some_iff.mp hresponse
    have herase := List.getElem_cons_eraseIdx_perm hlt
    simpa [List.append_assoc] using (herase.symm.append_left c.channel).append_left written
  | @write first channel taken rest hchannel hrest =>
    refine ⟨first :: taken, ?_, ?_⟩
    · rw [List.append_nil]
      refine h.responses.trans (.of_eq ?_)
      rw [hchannel, hrest]
      simp
    · show c.output ++ first ++ taken.flatten = _
      simp [h.output]

/-- The ledger of a connection. -/
structure Ledger (alloc : Allocator) (hash : String → Bytes → Nat) (maxPayloadLen : Nat)
    (p : Process n) (actions : List (Pool.Action Server.Action))
    (finished : List (Task × Option ResponseFrame)) (written : List Bytes) (c : Connection n) :
    Prop where
  executes : Executes alloc hash maxPayloadLen p actions finished c
  pays : c.Pays finished written
  shape : c.Shape

/-- What one step adds to the ledger. -/
theorem Ledger.step {written : List Bytes}
    (h : Ledger alloc hash maxPayloadLen p actions finished written c)
    (action : Connection.Action) :
    ∃ more, Ledger alloc hash maxPayloadLen p (actions ++ (c.threadAction action).toList)
      (finished ++ c.finishing alloc hash maxPayloadLen action) (written ++ more)
      (c.step alloc hash maxPayloadLen action).2 := by
  have hm := @moves_step n _ alloc hash maxPayloadLen c action
  obtain ⟨begun, hbegun, -⟩ := h.executes.begun
  obtain ⟨more, hpays⟩ := h.pays.of_moves h.shape hm
  exact ⟨more, h.executes.of_moves hm, hpays, h.shape.of_moves ⟨begun, hbegun⟩ hm⟩

section
variable (alloc hash maxPayloadLen) (c : Connection n) (actions : List Connection.Action)

/-- What the threads do in a run of the connection. -/
def threadActions : List (Pool.Action Server.Action) :=
  (Machine.history (step alloc hash maxPayloadLen) c actions).reverse.flatMap fun ev =>
    (ev.before.threadAction ev.action).toList

/-- The executions that come to their end in a run of the connection. -/
def completions : List (Task × Option ResponseFrame) :=
  (Machine.history (step alloc hash maxPayloadLen) c actions).reverse.flatMap fun ev =>
    ev.before.finishing alloc hash maxPayloadLen ev.action

theorem run_concat (action : Connection.Action) :
    c.run alloc hash maxPayloadLen (actions ++ [action]) =
      ((c.run alloc hash maxPayloadLen actions).step alloc hash maxPayloadLen action).2 :=
  Machine.run_concat ..

theorem threadActions_concat (action : Connection.Action) :
    c.threadActions alloc hash maxPayloadLen (actions ++ [action]) =
      c.threadActions alloc hash maxPayloadLen actions ++
        ((c.run alloc hash maxPayloadLen actions).threadAction action).toList := by
  simp [threadActions, Machine.event]

theorem completions_concat (action : Connection.Action) :
    c.completions alloc hash maxPayloadLen (actions ++ [action]) =
      c.completions alloc hash maxPayloadLen actions ++
        (c.run alloc hash maxPayloadLen actions).finishing alloc hash maxPayloadLen action := by
  simp [completions, Machine.event]

end

/-- What a run adds to the ledger. -/
theorem Ledger.run {written : List Bytes}
    (h : Ledger alloc hash maxPayloadLen p actions finished written c)
    (run : List Connection.Action) :
    ∃ more, Ledger alloc hash maxPayloadLen p
      (actions ++ c.threadActions alloc hash maxPayloadLen run)
      (finished ++ c.completions alloc hash maxPayloadLen run) (written ++ more)
      (c.run alloc hash maxPayloadLen run) := by
  induction run using List.reverseRecOn with
  | nil =>
    refine ⟨[], ?_⟩
    rw [List.append_nil]
    simpa [threadActions, completions, Machine.history, Machine.run] using h
  | append_singleton run action ih =>
    obtain ⟨more, hledger⟩ := ih
    obtain ⟨more', hstep⟩ := hledger.step action
    refine ⟨more ++ more', ?_⟩
    rw [threadActions_concat, completions_concat, run_concat, ← List.append_assoc,
      ← List.append_assoc, ← List.append_assoc]
    exact hstep

theorem seen_elsewhere (p : Process n) (earlier : List (Pool.Action Server.Action))
    (index : Nat) :
    Threads.seen alloc hash maxPayloadLen p (earlier.map elsewhere) (ownThread index) = [] := by
  induction earlier using List.reverseRecOn with
  | nil => rfl
  | append_singleton earlier action ih =>
    rw [List.map_append, List.map_singleton, Threads.seen,
      Atomic.seen_concat_of_ne (thread_elsewhere_ne action index)]
    exact ih

/-- The ledger of a new connection, whatever the server has done before. -/
theorem ledger_start (p : Process n) (earlier : List (Pool.Action Server.Action))
    (connectionId : UInt64) (reads : List Bytes) :
    Ledger alloc hash maxPayloadLen p (earlier.map elsewhere) [] []
      (start connectionId (Machine.run (Threads.step alloc hash maxPayloadLen) ⟨p, ∅⟩
        (earlier.map elsewhere)) reads) where
  executes := ⟨rfl, List.forall_mem_nil _, ⟨[], rfl, rfl, .nil⟩, List.forall_mem_nil _,
    List.forall_mem_nil _, fun index _ => seen_elsewhere p earlier index⟩
  pays := ⟨.nil, rfl⟩
  shape := ⟨fun _ => ⟨rfl, rfl, Nat.zero_le 1⟩, fun _ => List.forall_mem_nil _,
    fun frame hframe => by cases hframe⟩

/-! ## The answers -/

/-- The execution of a frame with the magic has given a response that carries its request id and its
command and is of a documented kind. -/
theorem Executes.exists_response (h : Executes alloc hash maxPayloadLen p actions finished c)
    (hwithin : ShardsWithin (valueBound maxPayloadLen) p.app.engine.shards)
    {x : Task × Option ResponseFrame} (hx : x ∈ finished) (hmagic : magic <+: x.1.frame) :
    ∃ r, x.2 = some r ∧ r.requestId = UInt64.ofNat (ofBytes (x.1.frame.extract 8 16)) ∧
      (∀ command, Command.fromId (x.1.frame.getD 6 0) = .ok command → r.command = command) ∧
      Documented r.command r.payload ∧
      ((∀ items, r.payload ≠ .batchGet items) →
        (encodeResponsePayload r.payload []).length < 2 ^ 32) := by
  obtain ⟨log, hlog, hvisible⟩ := h.exists_log
  obtain ⟨o, hseen⟩ := h.returned x hx
  obtain ⟨done, hcompleted, hreturns⟩ := hlog.exists_completed (t := x.1.thread) (by
    rw [hvisible]
    exact hseen)
  refine hreturns.exists_response (h.complete x.1.frame
    (h.mem_extracted (List.mem_append_right _ (List.mem_map_of_mem hx)))) hmagic
    fun y hy => real_of_explains hlog hwithin y (Atomic.mem_effects_of_completed hcompleted y hy)

/-- The executions that the encoder has not unwound. -/
def answered (finished : List (Task × Option ResponseFrame)) : List Bytes :=
  (finished.filter fun x => (reply x).isSome).map (·.1.frame)

/-- The encoder has unwound no execution but the one of the handler. -/
def Lossless (finished : List (Task × Option ResponseFrame)) (c : Connection n) : Prop :=
  (finished.filter fun x => (reply x).isNone).map (·.1.frame) = c.phase.lost

omit [NeZero n] in
theorem lossless_start (connectionId : UInt64) (server : Threads n) (reads : List Bytes) :
    (start connectionId server reads).Lossless [] :=
  rfl

omit [NeZero n] in
theorem Lossless.reply_ne_none (h : c.Lossless finished) (hphase : c.phase = .reading)
    {x : Task × Option ResponseFrame} (hx : x ∈ finished) : reply x ≠ none := by
  intro hnone
  have hlost : x.1.frame ∈ c.phase.lost := by
    rw [← h]
    exact List.mem_map_of_mem (List.mem_filter.mpr ⟨hx, by rw [hnone]; rfl⟩)
  rw [hphase] at hlost
  cases hlost

theorem length_lt_of_encodeResponseFrame {response : ResponseFrame} {bytes : Bytes}
    (h : encodeResponseFrame response = some bytes) :
    (encodeResponsePayload response.payload []).length < 2 ^ 32 := by
  rw [encodeResponseFrame_eq] at h
  rw [encodeResponsePayload_eq, List.nil_append]
  split at h
  next hlt => exact hlt
  next => cases h

theorem Executes.answers (h : Executes alloc hash maxPayloadLen p actions finished c)
    (hwithin : ShardsWithin (valueBound maxPayloadLen) p.app.engine.shards)
    (hmagic : ∀ frame ∈ c.extracted, magic <+: frame) :
    List.Forall₂ Answers (answered finished) (finished.filterMap reply) := by
  have hall : ∀ x ∈ finished, ∀ bytes, reply x = some bytes → Answers x.1.frame bytes := by
    intro x hx bytes hbytes
    obtain ⟨r, hr, hid, -, hdocumented, -⟩ := h.exists_response hwithin hx
      (hmagic _ (h.mem_extracted (List.mem_append_right _ (List.mem_map_of_mem hx))))
    rw [reply, hr] at hbytes
    obtain ⟨bytes', hbytes', hlength, hdecode⟩ := decodeResponseFrame_encodeResponseFrame
      (answers_of_documented hdocumented) (length_lt_of_encodeResponseFrame hbytes)
    cases hbytes'.symm.trans hbytes
    exact ⟨hlength, r, hid, hdecode⟩
  clear h
  unfold answered
  induction finished with
  | nil => exact .nil
  | cons x finished ih =>
    rw [List.forall_mem_cons] at hall
    cases hbytes : reply x with
    | none =>
      rw [List.filterMap_cons_none hbytes, List.filter_cons_of_neg (by simp [hbytes])]
      exact ih hall.2
    | some bytes =>
      rw [List.filterMap_cons_some hbytes, List.filter_cons_of_pos (by simp [hbytes])]
      exact .cons (hall.1 bytes hbytes) (ih hall.2)

/-- Every frame is accounted for. -/
theorem Ledger.accounts {written : List Bytes}
    (h : Ledger alloc hash maxPayloadLen p actions finished written c)
    (hlossless : c.Lossless finished)
    (hwithin : ShardsWithin (valueBound maxPayloadLen) p.app.engine.shards)
    (hmagic : ∀ frame ∈ c.extracted, magic <+: frame) :
    c.Accounts (answered finished) (finished.filterMap reply) written where
  answers := h.executes.answers hwithin hmagic
  responses := h.pays.responses
  output := h.pays.output
  extracted := by
    obtain ⟨begun, hbegun, -, hperm⟩ := h.executes.begun
    have hframes := hperm.map Task.frame
    rw [map_frame_numbered, List.map_append, List.map_map] at hframes
    have hparts : (answered finished ++ c.phase.lost).Perm
        (finished.map (Task.frame ∘ Prod.fst)) := by
      rw [← hlossless, answered, ← List.map_append]
      refine List.Perm.map _ ?_
      have hsplit := List.filter_append_perm (fun x => (reply x).isSome) finished
      simpa using hsplit
    rw [hbegun]
    refine (hframes.symm.append_right c.frames).trans ?_
    refine ((hparts.symm.append_left _).append_right c.frames).trans ?_
    simp only [List.append_assoc]
    refine List.perm_append_comm_assoc .. |>.trans (List.Perm.append_left _ (.append_left _ ?_))
    exact List.perm_append_comm

/-- If a task of a pipelined connection comes to the end of a batch, its answer fits. -/
def batchFits (alloc : Allocator) (hash : String → Bytes → Nat) (maxPayloadLen : Nat)
    (c : Connection n) (action : Connection.Action) : Bool :=
  !c.pipelined || (c.finishing alloc hash maxPayloadLen action).all fun x =>
    match x.2 with
    | some ⟨_, _, .batchGet items⟩ =>
      decide ((encodeResponsePayload (.batchGet items) []).length ≤ 2 ^ 32 - 1)
    | _ => true

theorem Moves.extracted {action : Connection.Action}
    {threadAction : Option (Pool.Action Server.Action)}
    {finishing : List (Task × Option ResponseFrame)}
    (hm : Moves alloc hash maxPayloadLen c action threadAction finishing c') :
    c.extracted <+: c'.extracted := by
  cases hm with
  | read => exact List.prefix_append ..
  | finish =>
    unfold Connection.finish
    dsimp only
    split <;> split <;> exact List.prefix_rfl
  | _ => exact List.prefix_rfl

/-- A task whose response is no batch, or a batch that fits, is not unwound. -/
theorem Executes.reply_ne_none
    (h : Executes alloc hash maxPayloadLen p actions finished c)
    (hwithin : ShardsWithin (valueBound maxPayloadLen) p.app.engine.shards)
    {x : Task × Option ResponseFrame} (hx : x ∈ finished) (hmagic : magic <+: x.1.frame)
    (hfits : ∀ r items, x.2 = some r → r.payload = .batchGet items →
      (encodeResponsePayload (.batchGet items) []).length ≤ 2 ^ 32 - 1) :
    reply x ≠ none := by
  obtain ⟨r, hr, -, -, -, hlt⟩ := h.exists_response hwithin hx hmagic
  have hlength : (encodeResponsePayload r.payload []).length < 2 ^ 32 := by
    by_cases hbatch : ∃ items, r.payload = .batchGet items
    · obtain ⟨items, hitems⟩ := hbatch
      have hle := hfits r items hr hitems
      rw [hitems]
      omega
    · exact hlt fun items hitems => hbatch ⟨items, hitems⟩
  obtain ⟨bytes, hbytes, -⟩ := (encodeResponseFrame_isSome_iff r).mpr hlength
  rw [reply, hr]
  show encodeResponseFrame r ≠ none
  rw [hbytes]
  simp

theorem Lossless.step {written : List Bytes} (hlossless : c.Lossless finished)
    (h : Ledger alloc hash maxPayloadLen p actions finished written c)
    (hwithin : ShardsWithin (valueBound maxPayloadLen) p.app.engine.shards)
    (action : Connection.Action)
    (hmagic : ∀ frame ∈ (c.step alloc hash maxPayloadLen action).2.extracted, magic <+: frame)
    (hfits : c.batchFits alloc hash maxPayloadLen action) :
    (c.step alloc hash maxPayloadLen action).2.Lossless
      (finished ++ c.finishing alloc hash maxPayloadLen action) := by
  have hm := @moves_step n _ alloc hash maxPayloadLen c action
  unfold batchFits at hfits
  generalize c.threadAction action = threadAction at hm
  generalize c.finishing alloc hash maxPayloadLen action = finishing at hm hfits ⊢
  generalize (c.step alloc hash maxPayloadLen action).2 = c' at hm hmagic ⊢
  have hexecutes := h.executes.of_moves hm
  cases hm with
  | close hphase =>
    rw [List.append_nil]
    refine hlossless.trans ?_
    rw [hphase]
    rfl
  | @finish i t response ht hresult =>
    have hnone : (finished.filter fun x => (reply x).isNone).map (·.1.frame) = [] := by
      refine hlossless.trans ?_
      cases hphase : c.phase with
      | panicked frame => exact absurd hphase (h.shape.not_panicked ht frame)
      | reading | finishing => rfl
    unfold Lossless
    rw [List.filter_append, List.map_append, hnone, List.nil_append]
    cases hreply : encodeResponse response with
    | some bytes =>
      rw [List.filter_cons_of_neg (by simp [reply, hreply])]
      unfold Connection.finish
      cases c.pipelined with
      | true | false => exact hnone.symm.trans hlossless
    | none =>
      rw [List.filter_cons_of_pos (by simp [reply, hreply])]
      cases hpipelined : c.pipelined with
      | false =>
        unfold Connection.finish
        rfl
      | true =>
        have hmem : (t, response) ∈ finished ++ [(t, response)] := by simp
        have hframe := hexecutes.mem_extracted
          (List.mem_append_right _ (List.mem_map_of_mem hmem))
        refine absurd hreply (hexecutes.reply_ne_none hwithin hmem (hmagic _ hframe)
          fun r items hr hitems => ?_)
        obtain ⟨requestId, command, payload⟩ := r
        cases hr
        cases hitems
        simpa [hpipelined] using hfits
  | _ =>
    rw [List.append_nil]
    exact hlossless

omit [NeZero n] in
/-- The frames that the handler has still to read. -/
def undelivered (maxPayloadLen : Nat) (c : Connection n) : List Bytes :=
  (deliverNativeFrames maxPayloadLen c.reads c.readBuffer).1

/-- No frame gets lost between the socket and the handler. -/
theorem Moves.delivered {action : Connection.Action}
    {threadAction : Option (Pool.Action Server.Action)}
    {finishing : List (Task × Option ResponseFrame)}
    (hm : Moves alloc hash maxPayloadLen c action threadAction finishing c')
    (hphase : c'.phase = .reading) :
    c.phase = .reading ∧ c'.extracted ++ c'.undelivered maxPayloadLen =
      c.extracted ++ c.undelivered maxPayloadLen := by
  cases hm with
  | close => cases hphase
  | read hreading _ _ hread =>
    refine ⟨hreading, ?_⟩
    rw [undelivered, undelivered, deliverNativeFrames_of_some hread, List.append_assoc]
  | finish =>
    revert hphase
    unfold Connection.finish
    dsimp only
    split
    · split <;> exact fun hphase => ⟨hphase, rfl⟩
    · split
      · exact fun hphase => ⟨hphase, rfl⟩
      · rintro ⟨⟩
  | _ => exact ⟨hphase, rfl⟩

theorem extracted_run_concat (c : Connection n) (actions : List Connection.Action)
    (action : Connection.Action) :
    (c.run alloc hash maxPayloadLen actions).extracted <+:
      (c.run alloc hash maxPayloadLen (actions ++ [action])).extracted := by
  rw [run_concat]
  exact (moves_step _ action).extracted

theorem Lossless.run {written : List Bytes} (hlossless : c.Lossless finished)
    (h : Ledger alloc hash maxPayloadLen p actions finished written c)
    (hwithin : ShardsWithin (valueBound maxPayloadLen) p.app.engine.shards)
    {run : List Connection.Action}
    (hmagic : ∀ frame ∈ (c.run alloc hash maxPayloadLen run).extracted, magic <+: frame)
    (hfits : ∀ ev ∈ Machine.history (Connection.step alloc hash maxPayloadLen) c run,
      ev.before.batchFits alloc hash maxPayloadLen ev.action) :
    (c.run alloc hash maxPayloadLen run).Lossless
      (finished ++ c.completions alloc hash maxPayloadLen run) := by
  induction run using List.reverseRecOn with
  | nil => simpa [completions, Machine.history, Machine.run] using hlossless
  | append_singleton run action ih =>
    rw [Machine.history_concat, List.forall_mem_cons] at hfits
    obtain ⟨more, hledger⟩ := h.run run
    have hbefore := ih (fun frame hframe =>
      hmagic frame ((extracted_run_concat c run action).subset hframe)) hfits.2
    rw [run_concat] at hmagic ⊢
    rw [completions_concat, ← List.append_assoc]
    exact hbefore.step hledger hwithin action hmagic hfits.1

end
end Connection
end Server
end Cachebox
