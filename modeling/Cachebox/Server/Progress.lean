import Cachebox.Server.Ledger
import Cachebox.Theory.Fair

/-!
# A connection answers its requests

A connection has a load: the sections that are left of its executions, and what is on its way from
the socket to the output. Every step that does something for the connection lowers it, and the rest
of the server does not raise it. So what a connection has read can be answered at any time, and if
its parts get their turn again and again, it comes to an end, unless the process is aborted.
-/

namespace Cachebox
namespace Server
open Protocol BigEndian

namespace Connection
variable {n : Nat}

/-! ## The load of a connection -/

/-- What is left to do for a frame that has not been begun. -/
def frameLoad (n maxPayloadLen : Nat) (frame : Bytes) : Nat :=
  Work.frameSections n maxPayloadLen frame + 4

def readLoad (maxPayloadLen : Nat) (c : Connection n) : Nat :=
  if c.phase = .reading then
    1 + ((c.undelivered maxPayloadLen).map fun frame => frameLoad n maxPayloadLen frame + 1).sum
  else 0

def taskLoad (maxPayloadLen : Nat) (server : Threads n) (tasks : List Task) : Nat :=
  (tasks.map fun task => server.sectionsLeft maxPayloadLen task.thread + 3).sum

def load (maxPayloadLen : Nat) (c : Connection n) : Nat :=
  c.readLoad maxPayloadLen + (c.frames.map (frameLoad n maxPayloadLen)).sum +
    taskLoad maxPayloadLen c.server c.tasks + 2 * c.sending.length + c.channel.length

section
variable {maxPayloadLen : Nat} {server server' : Threads n}

theorem taskLoad_congr {tasks : List Task}
    (h : ∀ task ∈ tasks, server'.sectionsLeft maxPayloadLen task.thread =
      server.sectionsLeft maxPayloadLen task.thread) :
    taskLoad maxPayloadLen server' tasks = taskLoad maxPayloadLen server tasks := by
  unfold taskLoad
  rw [List.map_congr_left fun task htask => by rw [h task htask]]

theorem taskLoad_eraseIdx {tasks : List Task} {i : Nat} {t : Task} (ht : tasks[i]? = some t) :
    taskLoad maxPayloadLen server tasks = server.sectionsLeft maxPayloadLen t.thread + 3 +
      taskLoad maxPayloadLen server (tasks.eraseIdx i) := by
  obtain ⟨hi, rfl⟩ := List.getElem?_eq_some_iff.mp ht
  unfold taskLoad
  rw [((List.getElem_cons_eraseIdx_perm hi).symm.map _).sum_eq, List.map_cons, List.sum_cons]

theorem taskLoad_concat (tasks : List Task) (task : Task) :
    taskLoad maxPayloadLen server (tasks ++ [task]) = taskLoad maxPayloadLen server tasks +
      (server.sectionsLeft maxPayloadLen task.thread + 3) := by
  simp [taskLoad]

end

variable [NeZero n] {alloc : Allocator} {hash : String → Bytes → Nat} {maxPayloadLen : Nat}
variable {p : Process n} {actions : List (Pool.Action Server.Action)}
variable {finished : List (Task × Option ResponseFrame)} {c c' : Connection n}

/-- The other executions have as much left as before. -/
theorem Executes.taskLoad_advance (h : Executes alloc hash maxPayloadLen p actions finished c)
    {i : Nat} {t : Task} (ht : c.tasks[i]? = some t) :
    taskLoad maxPayloadLen (c.server.step alloc hash maxPayloadLen (.advance t.thread)).2
      (c.tasks.eraseIdx i) = taskLoad maxPayloadLen c.server (c.tasks.eraseIdx i) :=
  taskLoad_congr fun task htask => Threads.sectionsLeft_step_of_ne
    (ownThread_ne (h.index_ne ht task (List.mem_append_left _ htask)))

theorem Executes.load_spawn_lt (h : Executes alloc hash maxPayloadLen p actions finished c)
    {o : IterOrder} {frame : Bytes} {frames : List Bytes} (hframes : c.frames = frame :: frames) :
    load maxPayloadLen { c with
      frames
      tasks := c.tasks ++ [⟨c.spawned, frame⟩]
      spawned := c.spawned + 1
      server := (c.server.step alloc hash maxPayloadLen
        (.call (ownThread c.spawned) (.frame o c.connectionId frame))).2 } <
      c.load maxPayloadLen := by
  have hothers : taskLoad maxPayloadLen (c.server.step alloc hash maxPayloadLen
      (.call (ownThread c.spawned) (.frame o c.connectionId frame))).2 c.tasks =
        taskLoad maxPayloadLen c.server c.tasks :=
    taskLoad_congr fun task htask => Threads.sectionsLeft_step_of_ne
      (ownThread_ne (h.index_lt task (List.mem_append_left _ htask)).ne')
  have hnew := @Threads.sectionsLeft_call n alloc hash maxPayloadLen _ c.server
    (ownThread c.spawned) (h.lookup_eq_none le_rfl) o c.connectionId frame
  simp only [load, readLoad, undelivered, taskLoad_concat, hothers, Task.thread, hnew, hframes,
    List.map_cons, List.sum_cons, frameLoad]
  omega

theorem Executes.load_work_lt (h : Executes alloc hash maxPayloadLen p actions finished c)
    {i : Nat} {t : Task} (ht : c.tasks[i]? = some t)
    (hresult : (c.server.step alloc hash maxPayloadLen (.advance t.thread)).1 = none)
    (hrunning : (c.server.step alloc hash maxPayloadLen
      (.advance t.thread)).2.shared.aborted = false) :
    load maxPayloadLen { c with
      server := (c.server.step alloc hash maxPayloadLen (.advance t.thread)).2 } <
      c.load maxPayloadLen := by
  obtain ⟨work, hwork⟩ := h.exists_work (List.mem_of_getElem? ht)
  have hlt := Threads.sectionsLeft_advance_lt hwork hresult hrunning
  have hbefore := @taskLoad_eraseIdx n maxPayloadLen c.server c.tasks i t ht
  have hafter := @taskLoad_eraseIdx n maxPayloadLen
    (c.server.step alloc hash maxPayloadLen (.advance t.thread)).2 c.tasks i t ht
  rw [h.taskLoad_advance ht] at hafter
  simp only [load, readLoad, undelivered]
  omega

theorem Executes.load_finish_lt (h : Executes alloc hash maxPayloadLen p actions finished c)
    {i : Nat} {t : Task} (ht : c.tasks[i]? = some t) (response : Option Bytes) :
    load maxPayloadLen ({ c with
        server := (c.server.step alloc hash maxPayloadLen (.advance t.thread)).2 }.finish i t.frame
      response) < c.load maxPayloadLen := by
  have hbefore := @taskLoad_eraseIdx n maxPayloadLen c.server c.tasks i t ht
  have hothers := h.taskLoad_advance ht
  unfold Connection.finish
  dsimp only
  split
  · split
    · simp only [load, readLoad, undelivered, hothers, List.length_append, List.length_singleton]
      omega
    · simp only [load, readLoad, undelivered, hothers]
      omega
  · split
    · simp only [load, readLoad, undelivered, hothers]
      omega
    · simp only [load, readLoad, undelivered, hothers, reduceCtorEq, if_false]
      omega

omit [NeZero n] in
theorem load_read_lt (hphase : c.phase = .reading) (hframes : c.frames = []) {ranges : List Range}
    {reads : List Bytes} {readBuffer : Bytes} {pipelined : Bool} {extracted : List Bytes}
    (hread : readNativeFrameRanges maxPayloadLen c.reads c.readBuffer =
      (some ranges, reads, readBuffer)) :
    load maxPayloadLen { c with
      reads
      readBuffer := drainFrameRanges readBuffer ranges
      pipelined
      frames := ranges.map (Range.slice readBuffer)
      extracted } < c.load maxPayloadLen := by
  have hne : 0 < (ranges.map (Range.slice readBuffer)).length := by
    rw [List.length_map]
    exact List.length_pos_iff.mpr (frames_of_readNativeFrameRanges hread).1
  simp only [load, readLoad, hphase, if_true, undelivered, deliverNativeFrames_of_some hread,
    hframes, List.map_append, List.sum_append, List.sum_map_add, List.map_const',
    List.sum_replicate, List.map_nil, List.sum_nil, smul_eq_mul]
  omega

/-- A step brings the connection closer to its end, or leaves it as it is. -/
theorem Moves.load_lt (h : Executes alloc hash maxPayloadLen p actions finished c)
    {action : Connection.Action} {threadAction : Option (Pool.Action Server.Action)}
    {finishing : List (Task × Option ResponseFrame)}
    (hm : Moves alloc hash maxPayloadLen c action threadAction finishing c')
    (hrunning : c'.server.shared.aborted = false) :
    c'.load maxPayloadLen < c.load maxPayloadLen ∨
      ((∃ server, c' = { c with server }) ∧ c'.load maxPayloadLen = c.load maxPayloadLen) ∧
        (c.server.shared.aborted = true ∨ c.Blocked action ∨ ∃ served, action = .serve served) := by
  cases hm with
  | idle hblocked =>
    exact .inr ⟨⟨⟨c.server, rfl⟩, rfl⟩, hblocked.imp_right .inl⟩
  | close hphase =>
    refine .inl ?_
    simp only [load, readLoad, hphase, if_true, reduceCtorEq, if_false]
    omega
  | read hphase hframes _ hread => exact .inl (load_read_lt hphase hframes hread)
  | spawn hframes => exact .inl (h.load_spawn_lt hframes)
  | work ht hresult => exact .inl (h.load_work_lt ht hresult hrunning)
  | finish ht => exact .inl (h.load_finish_lt ht _)
  | @send task response hresponse =>
    obtain ⟨hlt, -⟩ := List.getElem?_eq_some_iff.mp hresponse
    have herase := List.length_eraseIdx_of_lt hlt
    refine .inl ?_
    simp only [load, readLoad, undelivered, List.length_append, List.length_singleton]
    omega
  | write hchannel hrest =>
    refine .inl ?_
    simp only [load, readLoad, undelivered, hchannel, hrest, List.length_append, List.length_cons]
    omega
  | @serve action =>
    refine .inr ⟨⟨⟨_, rfl⟩, ?_⟩, .inr (.inr ⟨action, rfl⟩)⟩
    simp only [load, readLoad, undelivered]
    rw [taskLoad_congr fun task _ =>
      Threads.sectionsLeft_step_of_ne (thread_elsewhere_ne action task.index)]

/-! ## The process goes on -/

theorem countsFit_elsewhere {action : Pool.Action Server.Action}
    (h : Threads.CountsFit maxPayloadLen action) :
    Threads.CountsFit maxPayloadLen (elsewhere action) := by
  cases action with
  | call t op =>
    cases op with
    | frame | expirationTick => exact h
  | advance t => trivial

/-- The frame has the magic, and its counts fit. -/
structure Sound (maxPayloadLen : Nat) (frame : Bytes) : Prop where
  magic : magic <+: frame
  countsFit : CountsFit kindRequest RequestFront frame maxPayloadLen

/-- The counts fit in what the rest of the server begins to execute. -/
def Action.Served (maxPayloadLen : Nat) : Connection.Action → Prop
  | .serve action => Threads.CountsFit maxPayloadLen action
  | _ => True

theorem alive_of_moves (halloc : ∀ count ≤ maxPayloadLen, alloc count = true)
    (halive : c.server.Alive alloc maxPayloadLen)
    (h : Executes alloc hash maxPayloadLen p actions finished c) {action : Connection.Action}
    {threadAction : Option (Pool.Action Server.Action)}
    {finishing : List (Task × Option ResponseFrame)}
    (hm : Moves alloc hash maxPayloadLen c action threadAction finishing c')
    (hserved : action.Served maxPayloadLen)
    (hsound : ∀ frame ∈ c.extracted, Sound maxPayloadLen frame) :
    c'.server.Alive alloc maxPayloadLen := by
  have hserver := hm.server
  cases hm with
  | idle | close | read | send | write => exact halive
  | @spawn o frame frames hframes =>
    refine halive.step halloc (hsound frame ?_).countsFit
    obtain ⟨begun, hbegun, -⟩ := h.begun
    rw [hbegun, hframes]
    simp
  | work => exact halive.step halloc trivial
  | finish =>
    rw [hserver]
    exact halive.step halloc trivial
  | serve => exact halive.step halloc (countsFit_elsewhere hserved)

/-- The process goes on, whatever the connection and the rest of the server execute. -/
theorem alive_run (halloc : ∀ count ≤ maxPayloadLen, alloc count = true)
    (halive : c.server.Alive alloc maxPayloadLen) {written : List Bytes}
    (h : Ledger alloc hash maxPayloadLen p actions finished written c)
    {run : List Connection.Action} (hserved : ∀ action ∈ run, action.Served maxPayloadLen)
    (hsound : ∀ frame ∈ (c.run alloc hash maxPayloadLen run).extracted,
      Sound maxPayloadLen frame) :
    (c.run alloc hash maxPayloadLen run).server.Alive alloc maxPayloadLen := by
  induction run using List.reverseRecOn with
  | nil => exact halive
  | append_singleton run action ih =>
    rw [List.forall_mem_append, List.forall_mem_singleton] at hserved
    obtain ⟨more, hledger⟩ := h.run run
    have hbefore := fun frame hframe =>
      hsound frame ((extracted_run_concat c run action).subset hframe)
    rw [run_concat]
    exact alive_of_moves halloc (ih hserved.1 hbefore) hledger.executes (moves_step _ action)
      hserved.2 hbefore

theorem alive_accept (halloc : ∀ count ≤ maxPayloadLen, alloc count = true)
    (clocks : Fin n → Clock) (limits : EngineLimits) {earlier : List (Pool.Action Server.Action)}
    (hearlier : ∀ action ∈ earlier, Threads.CountsFit maxPayloadLen action) (connectionId : UInt64)
    (reads : List Bytes) :
    (accept alloc hash maxPayloadLen clocks limits earlier connectionId reads).server.Alive alloc
      maxPayloadLen :=
  Machine.run_invariant_of (fun _ _ haction h => h.step halloc haction)
    (Threads.alive_fromConfig clocks limits)
    (List.forall_mem_map.mpr fun action haction => countsFit_elsewhere (hearlier action haction))

/-! ## What is on its way can be got out -/

/-- The parts of a connection that take turns. Of the executions it is the oldest one that
counts. -/
inductive Part where
  | reader | spawner | executor | sender | writer

def Part.turn : Part → Action → Prop
  | .reader, .receive => True
  | .spawner, .spawn _ => True
  | .executor, .advance task => task = 0
  | .sender, .send task => task = 0
  | .writer, .write => True
  | _, _ => False

omit [NeZero n] in
/-- The part can act. -/
def Part.Free (c : Connection n) (part : Part) : Prop :=
  ∀ action, part.turn action → ¬ c.Blocked action

theorem Part.exists_turn (part : Part) : ∃ action, part.turn action := by
  cases part with
  | reader => exact ⟨.receive, trivial⟩
  | spawner => exact ⟨.spawn .asStored, trivial⟩
  | executor => exact ⟨.advance 0, rfl⟩
  | sender => exact ⟨.send 0, rfl⟩
  | writer => exact ⟨.write, trivial⟩

theorem Part.ne_serve_of_turn {part : Part} {action : Action} (h : part.turn action)
    (served : Pool.Action Server.Action) : action ≠ .serve served := by
  rintro rfl
  cases part <;> exact h

theorem Part.ne_receive_of_turn {part : Part} {action : Action} (h : part.turn action)
    (hpart : part ≠ .reader) : action ≠ .receive := by
  rintro rfl
  cases part with
  | reader => exact hpart rfl
  | spawner | executor | sender | writer => exact h

omit [NeZero n] in
/-- While something is on its way, it is the turn of a part other than the reader. -/
theorem exists_free_of_not_settled (h : ¬ c.Settled) :
    ∃ part : Part, part ≠ .reader ∧ part.Free c := by
  by_cases hchannel : c.channel = []
  · by_cases hsending : c.sending = []
    · by_cases htasks : c.tasks = []
      · by_cases hframes : c.frames = []
        · exact absurd ⟨hframes, htasks, hsending, hchannel⟩ h
        · refine ⟨.spawner, by simp, fun action hturn => ?_⟩
          cases action with
          | spawn o =>
            simp only [Blocked, not_or]
            refine ⟨hframes, ?_⟩
            rw [htasks, hsending, width]
            split <;> decide
          | _ => exact hturn.elim
      · refine ⟨.executor, by simp, fun action hturn => ?_⟩
        cases action with
        | advance task =>
          obtain rfl : task = 0 := hturn
          simpa [Blocked] using htasks
        | _ => exact hturn.elim
    · refine ⟨.sender, by simp, fun action hturn => ?_⟩
      cases action with
      | send task =>
        obtain rfl : task = 0 := hturn
        simp only [Blocked, not_or]
        refine ⟨by simpa using hsending, ?_⟩
        rw [hchannel]
        decide
      | _ => exact hturn.elim
  · refine ⟨.writer, by simp, fun action hturn => ?_⟩
    cases action with
    | write => exact hchannel
    | _ => exact hturn.elim

theorem Moves.of_not_receive {action : Connection.Action}
    {threadAction : Option (Pool.Action Server.Action)}
    {finishing : List (Task × Option ResponseFrame)}
    (hm : Moves alloc hash maxPayloadLen c action threadAction finishing c')
    (haction : action ≠ .receive) :
    c'.extracted = c.extracted ∧ c'.pipelined = c.pipelined ∧
      (c.pipelined = true → c'.phase = c.phase) := by
  cases hm with
  | close | read => exact absurd rfl haction
  | finish =>
    unfold Connection.finish
    dsimp only
    split
    · split <;> exact ⟨rfl, rfl, fun _ => rfl⟩
    · split
      · exact ⟨rfl, rfl, fun _ => rfl⟩
      next hp => exact ⟨rfl, rfl, fun hp' => absurd hp' hp⟩
  | _ => exact ⟨rfl, rfl, fun _ => rfl⟩

/-- The turn of a part that can act brings the connection closer to its end. -/
theorem Moves.load_lt_of_free (h : Executes alloc hash maxPayloadLen p actions finished c)
    {action : Connection.Action} {threadAction : Option (Pool.Action Server.Action)}
    {finishing : List (Task × Option ResponseFrame)}
    (hm : Moves alloc hash maxPayloadLen c action threadAction finishing c')
    (hbefore : c.server.shared.aborted = false) (hafter : c'.server.shared.aborted = false)
    {part : Part} (hfree : part.Free c) (hturn : part.turn action) :
    c'.load maxPayloadLen < c.load maxPayloadLen := by
  refine (hm.load_lt h hafter).resolve_right fun hidle => ?_
  rcases hidle.2 with haborted | hblocked | ⟨served, rfl⟩
  · rw [hbefore] at haborted
    cases haborted
  · exact hfree action hturn hblocked
  · exact Part.ne_serve_of_turn hturn served rfl

/-- While the process goes on, a connection can get its frames and responses out. -/
theorem exists_settled (halloc : ∀ count ≤ maxPayloadLen, alloc count = true)
    (halive : c.server.Alive alloc maxPayloadLen) {written : List Bytes}
    (h : Ledger alloc hash maxPayloadLen p actions finished written c)
    (hsound : ∀ frame ∈ c.extracted, Sound maxPayloadLen frame) :
    ∃ run, (c.run alloc hash maxPayloadLen run).Settled ∧
      (c.run alloc hash maxPayloadLen run).extracted = c.extracted ∧
      (c.pipelined = true → (c.run alloc hash maxPayloadLen run).phase = c.phase) := by
  induction hload : c.load maxPayloadLen using Nat.strongRecOn
    generalizing c actions finished written with
  | ind k ih =>
    by_cases hsettled : c.Settled
    · exact ⟨[], hsettled, rfl, fun _ => rfl⟩
    obtain ⟨part, hpart, hfree⟩ := exists_free_of_not_settled hsettled
    obtain ⟨action, hturn⟩ := part.exists_turn
    have hm := @moves_step n _ alloc hash maxPayloadLen c action
    obtain ⟨hextracted, hpipelined, hphase⟩ :=
      hm.of_not_receive (Part.ne_receive_of_turn hturn hpart)
    have hserved : action.Served maxPayloadLen := by
      cases action with
      | serve served => exact absurd rfl (Part.ne_serve_of_turn hturn served)
      | _ => trivial
    have halive' := alive_of_moves halloc halive h.executes hm hserved hsound
    have hlt := hm.load_lt_of_free h.executes halive.running halive'.running hfree hturn
    obtain ⟨more, hledger⟩ := h.step action
    obtain ⟨run, hend, hextracted', hphase'⟩ :=
      ih _ (hload ▸ hlt) halive' hledger (hextracted ▸ hsound) rfl
    exact ⟨action :: run, hend, hextracted'.trans hextracted,
      fun hp => (hphase' (hpipelined.trans hp)).trans (hphase hp)⟩

/-! ## Every frame is answered -/

/-- **No request is swallowed** on a connection whose frames all have the magic and counts that fit,
if the batches that its tasks read fit in a response and the counts fit in the frames of the other
connections: the process is not aborted, and every frame that the connection has extracted has
exactly one response, written or on its way, or is still to be executed, or is the last one, at
which the handler was unwound. What is on its way can be got out, and then the output is one
response for each frame. -/
theorem every_frame_answered (halloc : ∀ count ≤ maxPayloadLen, alloc count = true)
    (clocks : Fin n → Clock) (limits : EngineLimits) (earlier : List (Pool.Action Server.Action))
    (hearlier : ∀ action ∈ earlier, Threads.CountsFit maxPayloadLen action) (connectionId : UInt64)
    (reads : List Bytes) (run : List Action)
    (hserved : ∀ action ∈ run, action.Served maxPayloadLen)
    (hsound : ∀ frame ∈ ((accept alloc hash maxPayloadLen clocks limits earlier connectionId
      reads).run alloc hash maxPayloadLen run).extracted, Sound maxPayloadLen frame)
    (hfits : ∀ ev ∈ Machine.history (step alloc hash maxPayloadLen)
      (accept alloc hash maxPayloadLen clocks limits earlier connectionId reads) run,
      ev.before.batchFits alloc hash maxPayloadLen ev.action) :
    let c := (accept alloc hash maxPayloadLen clocks limits earlier connectionId reads).run alloc
      hash maxPayloadLen run
    c.server.shared.aborted = false ∧
      (∃ answered responses written, c.Accounts answered responses written) ∧
      (∀ frame, c.phase = .panicked frame → ∃ earlier, c.extracted = earlier ++ [frame]) ∧
      (∃ more, (c.run alloc hash maxPayloadLen more).Settled ∧
        (c.run alloc hash maxPayloadLen more).extracted = c.extracted ∧
        (c.pipelined = true → (c.run alloc hash maxPayloadLen more).phase = c.phase)) ∧
      (c.Settled → c.EachAnswered) := by
  intro c
  have hwithin := @shardsWithin_fromConfig n clocks limits (valueBound maxPayloadLen)
  have hstart := @ledger_start n _ alloc hash maxPayloadLen ⟨.fromConfig clocks limits, false⟩
    earlier connectionId reads
  have halive : c.server.Alive alloc maxPayloadLen := alive_run halloc
    (alive_accept halloc clocks limits hearlier connectionId reads) hstart hserved hsound
  have hmagic := fun frame hframe => (hsound frame hframe).magic
  have hlossless : c.Lossless _ :=
    (lossless_start connectionId _ reads).run hstart hwithin hmagic hfits
  obtain ⟨written, hledger⟩ := hstart.run run
  have haccounts := hledger.accounts hlossless hwithin hmagic
  exact ⟨halive.running, ⟨_, _, _, haccounts⟩,
    fun frame hframe => (hledger.shape.closed frame hframe).2.2,
    exists_settled halloc halive hledger hsound, haccounts.eachAnswered⟩

/-- A connection to a new server. -/
def newConnection (reads : List Bytes) : Connection 1 :=
  @accept 1 neZero_one millionElements (fun _ _ => 0) 64 (fun _ => ⟨fun _ => 0, 0⟩) ⟨1000, 100⟩ [] 1
    reads

/-- Two get requests in one read, executed in the opposite order. -/
def pipelinedGets : List Action :=
  [.receive, .spawn .asStored, .spawn .asStored, .advance 1, .advance 0, .advance 1, .advance 0,
    .send 0, .send 0, .write, .receive]

theorem sound_getRequest : Sound 64 getRequestBytes where
  magic := by decide +kernel
  countsFit :=
    (countsFit_iff records_decodeRequestPayload getRequestBytes 64).mp (by decide +kernel)

theorem every_frame_answered_pipelinedGets :
    ((newConnection [getRequestBytes ++ getRequestBytes]).run millionElements (fun _ _ => 0) 64
      pipelinedGets).extracted = [getRequestBytes, getRequestBytes] ∧
    ((newConnection [getRequestBytes ++ getRequestBytes]).run millionElements (fun _ _ => 0) 64
      pipelinedGets).EachAnswered := by
  have hextracted : ((newConnection [getRequestBytes ++ getRequestBytes]).run millionElements
      (fun _ _ => 0) 64 pipelinedGets).extracted = [getRequestBytes, getRequestBytes] := by
    decide +kernel
  have hsettled : ((newConnection [getRequestBytes ++ getRequestBytes]).run millionElements
      (fun _ _ => 0) 64 pipelinedGets).Settled := by
    decide +kernel
  refine ⟨hextracted, (every_frame_answered (fun count hcount => ?_) (fun _ => ⟨fun _ => 0, 0⟩)
    ⟨1000, 100⟩ [] (List.forall_mem_nil _) 1 [getRequestBytes ++ getRequestBytes] pipelinedGets
    (fun action haction => ?_) (fun frame hframe => ?_) (by decide +kernel)).2.2.2.2 hsettled⟩
  · exact decide_eq_true (hcount.trans (by decide))
  · cases action with
    | serve served => simp [pipelinedGets] at haction
    | _ => trivial
  · have hmem : frame ∈ [getRequestBytes, getRequestBytes] := hextracted ▸ hframe
    simp only [List.mem_cons, List.not_mem_nil, or_false, or_self] at hmem
    rw [hmem]
    exact sound_getRequest

/-- Each response takes up at least a header. -/
theorem length_flatten_of_answers {frames responses : List Bytes}
    (h : List.Forall₂ Answers frames responses) :
    headerLen * frames.length ≤ responses.flatten.length := by
  induction h with
  | nil => exact Nat.zero_le _
  | cons hanswer _ ih =>
    have hlen := hanswer.1
    rw [List.length_cons, List.flatten_cons, List.length_append, Nat.mul_succ]
    omega

/-- A complete frame without the magic. -/
def frameWithoutMagic : Bytes := List.replicate 24 0

/-- A frame without the magic gets no response and the connection goes on to execute the next
request. -/
theorem not_every_frame_answered_without_magic :
    let c := (newConnection [frameWithoutMagic, getRequestBytes]).run millionElements (fun _ _ => 0)
      64 [.receive, .spawn .asStored, .advance 0, .receive, .spawn .asStored, .advance 0,
        .advance 0, .receive]
    c.extracted = [frameWithoutMagic, getRequestBytes] ∧ c.phase = .finishing ∧ c.Settled ∧
      decodeResponseFrame c.output 64 = .ok ⟨1, .get, .miss⟩ ∧ c.output.length = 25 ∧
      ¬ c.EachAnswered := by
  intro c
  have hextracted : c.extracted = [frameWithoutMagic, getRequestBytes] := by decide +kernel
  have hphase : c.phase = .finishing := by decide +kernel
  have hlength : c.output.length = 25 := by decide +kernel
  refine ⟨hextracted, hphase, by decide +kernel, by decide +kernel, hlength, ?_⟩
  intro h
  obtain ⟨frames, responses, hperm, hanswers, houtput⟩ := h
  rw [hphase] at hperm
  have hframes := hperm.length_eq
  have hbytes := length_flatten_of_answers hanswers
  rw [← houtput, hlength] at hbytes
  simp only [hextracted, Phase.lost, List.append_nil, List.length_cons, List.length_nil,
    headerLen] at hframes hbytes
  omega

/-! ## A connection comes to an end -/

section
variable {n : Nat}

/-- The connection has been closed and has nothing left to do. -/
def Finished (c : Connection n) : Prop := c.phase ≠ .reading ∧ c.Settled

/-- The process was aborted, or the connection is finished. -/
def AtRest (c : Connection n) : Prop := c.server.shared.aborted = true ∨ c.Finished

def rank (maxPayloadLen : Nat) (c : Connection n) : Nat :=
  if c.server.shared.aborted then 0 else c.load maxPayloadLen + 1

def Part.Enabled (part : Part) (c : Connection n) : Prop :=
  c.server.shared.aborted = false ∧ part.Free c

theorem exists_enabled {c : Connection n} (h : ¬ c.AtRest) : ∃ part : Part, part.Enabled c := by
  rw [AtRest, not_or, Bool.not_eq_true] at h
  by_cases hsettled : c.Settled
  · refine ⟨.reader, h.1, fun action hturn => ?_⟩
    have hphase : c.phase = .reading := by
      by_contra hphase
      exact h.2 ⟨hphase, hsettled⟩
    cases action with
    | receive => simp [Blocked, hphase, hsettled.1, hsettled.2.1]
    | _ => exact hturn.elim
  · obtain ⟨part, -, hfree⟩ := exists_free_of_not_settled hsettled
    exact ⟨part, h.1, hfree⟩

variable [NeZero n] {alloc : Allocator} {hash : String → Bytes → Nat} {maxPayloadLen : Nat}
variable {p : Process n} {c : Connection n}

/-- The connection has a ledger since the process was in state `p`. -/
def HasLedger (alloc : Allocator) (hash : String → Bytes → Nat) (maxPayloadLen : Nat)
    (p : Process n) (c : Connection n) : Prop :=
  ∃ actions finished written, Ledger alloc hash maxPayloadLen p actions finished written c

theorem HasLedger.step (c : Connection n) (action : Action)
    (h : HasLedger alloc hash maxPayloadLen p c) :
    HasLedger alloc hash maxPayloadLen p (c.step alloc hash maxPayloadLen action).2 := by
  obtain ⟨actions, finished, written, hledger⟩ := h
  obtain ⟨more, hstep⟩ := hledger.step action
  exact ⟨_, _, _, hstep⟩

theorem rank_lt_or_enabled (c : Connection n) (action : Action)
    (h : HasLedger alloc hash maxPayloadLen p c) :
    (c.step alloc hash maxPayloadLen action).2.rank maxPayloadLen < c.rank maxPayloadLen ∨
      (c.step alloc hash maxPayloadLen action).2.rank maxPayloadLen = c.rank maxPayloadLen ∧
        ∀ part : Part, part.Enabled c →
          part.Enabled (c.step alloc hash maxPayloadLen action).2 := by
  obtain ⟨actions, finished, written, hledger⟩ := h
  cases haborted : c.server.shared.aborted with
  | true =>
    rw [step_of_aborted haborted]
    exact .inr ⟨rfl, fun _ => id⟩
  | false =>
    have hm := @moves_step n _ alloc hash maxPayloadLen c action
    generalize (c.step alloc hash maxPayloadLen action).2 = c' at hm ⊢
    have hrank : c.rank maxPayloadLen = c.load maxPayloadLen + 1 := by rw [rank, haborted]; rfl
    cases haborted' : c'.server.shared.aborted with
    | true =>
      rw [hrank, rank, if_pos haborted']
      exact .inl (Nat.succ_pos _)
    | false =>
      have hrank' : c'.rank maxPayloadLen = c'.load maxPayloadLen + 1 := by
        rw [rank, haborted']
        rfl
      rw [hrank, hrank']
      rcases hm.load_lt hledger.executes haborted' with hlt | ⟨⟨⟨server, rfl⟩, heq⟩, -⟩
      · exact .inl (Nat.succ_lt_succ hlt)
      · refine .inr ⟨congrArg Nat.succ heq, fun part henabled => ⟨haborted', ?_⟩⟩
        intro action' hturn hblocked
        refine henabled.2 action' hturn ?_
        cases action' <;> exact hblocked

theorem rank_lt_of_enabled (c : Connection n) (action : Action) (part : Part)
    (h : HasLedger alloc hash maxPayloadLen p c) (henabled : part.Enabled c)
    (hturn : part.turn action) :
    (c.step alloc hash maxPayloadLen action).2.rank maxPayloadLen < c.rank maxPayloadLen := by
  obtain ⟨actions, finished, written, hledger⟩ := h
  have hm := @moves_step n _ alloc hash maxPayloadLen c action
  have hrank : c.rank maxPayloadLen = c.load maxPayloadLen + 1 := by rw [rank, henabled.1]; rfl
  rw [hrank, rank]
  split
  · exact Nat.succ_pos _
  next haborted =>
    exact Nat.succ_lt_succ (hm.load_lt_of_free hledger.executes henabled.1
      (Bool.eq_false_of_not_eq_true haborted) henabled.2 hturn)

/-- The rank of the states on the way to the end. -/
def ranking (alloc : Allocator) (hash : String → Bytes → Nat) (maxPayloadLen : Nat)
    (p : Process n) : Machine.Ranking (step alloc hash maxPayloadLen) Part.turn
      (HasLedger alloc hash maxPayloadLen p) AtRest where
  rank := rank maxPayloadLen
  Enabled := Part.Enabled
  keeps := HasLedger.step
  stays := rank_lt_or_enabled
  enabled _ _ := exists_enabled
  fires := rank_lt_of_enabled

/-- **A connection comes to an end.** Its handler, its tasks and its writer take turns in any order,
along with the rest of the server, such that each of them gets its turn again and again. Then the
process is aborted, or the connection reads what it is sent until it is closed, executes every
request that it has read and writes every response. If the frames all have the magic, the counts fit
in the frames of all connections and the batches that its tasks read fit in a response, the process
is not aborted and the output is in the end one response for each frame, but for the one at which
the handler was unwound. -/
theorem fair_connection_finishes (alloc : Allocator) (hash : String → Bytes → Nat)
    (maxPayloadLen : Nat) (clocks : Fin n → Clock) (limits : EngineLimits)
    (earlier : List (Pool.Action Server.Action)) (connectionId : UInt64) (reads : List Bytes)
    (schedule : Nat → Action) (hfair : Machine.Fair Part.turn schedule) :
    let c := Machine.orbit (step alloc hash maxPayloadLen)
      (accept alloc hash maxPayloadLen clocks limits earlier connectionId reads) schedule
    ∃ T, ∀ t ≥ T, ((c t).server.shared.aborted = true ∨ (c t).phase ≠ .reading ∧ (c t).Settled) ∧
      ((∀ count ≤ maxPayloadLen, alloc count = true) →
        (∀ action ∈ earlier, Threads.CountsFit maxPayloadLen action) →
        (∀ t, (schedule t).Served maxPayloadLen) →
        (∀ frame ∈ (c t).extracted, Sound maxPayloadLen frame) →
        (∀ t, (c t).batchFits alloc hash maxPayloadLen (schedule t)) →
        (c t).server.shared.aborted = false ∧ (c t).EachAnswered) := by
  intro c
  have hwithin := @shardsWithin_fromConfig n clocks limits (valueBound maxPayloadLen)
  have hstart := @ledger_start n _ alloc hash maxPayloadLen ⟨.fromConfig clocks limits, false⟩
    earlier connectionId reads
  obtain ⟨T, hT⟩ := (ranking alloc hash maxPayloadLen _).eventually_rest hfair ⟨_, _, _, hstart⟩
  refine ⟨T, fun t ht => ⟨hT t ht, fun halloc hearlier hserved hsound hfits => ?_⟩⟩
  have hrun : c t = (accept alloc hash maxPayloadLen clocks limits earlier connectionId reads).run
      alloc hash maxPayloadLen ((List.range t).map schedule) := Machine.orbit_eq_run ..
  have hrest : (c t).AtRest := hT t ht
  rw [hrun] at hsound hrest ⊢
  have halive := alive_run halloc (alive_accept halloc clocks limits hearlier connectionId reads)
    hstart (List.forall_mem_map.mpr fun k _ => hserved k) hsound
  have hmagic := fun frame hframe => (hsound frame hframe).magic
  have hlossless := (lossless_start connectionId _ reads).run hstart hwithin hmagic
    fun ev hev => by
      obtain ⟨k, hbefore, haction⟩ := Machine.exists_of_mem_history hev
      rw [hbefore, haction]
      exact hfits k
  obtain ⟨written, hledger⟩ := hstart.run ((List.range t).map schedule)
  refine ⟨halive.running, (hledger.accounts hlossless hwithin hmagic).eachAnswered ?_⟩
  refine (hrest.resolve_left fun haborted => ?_).2
  rw [halive.running] at haborted
  cases haborted

end

/-- The parts one after the other. -/
def roundRobin (t : Nat) : Action :=
  match t % 5 with
  | 0 => .receive
  | 1 => .spawn .asStored
  | 2 => .advance 0
  | 3 => .send 0
  | _ => .write

theorem fair_roundRobin : Machine.Fair Part.turn roundRobin := by
  intro part t
  cases part with
  | reader => exact ⟨5 * t, by omega, by simp [roundRobin, Part.turn]⟩
  | spawner => exact ⟨5 * t + 1, by omega, by simp [roundRobin, Part.turn]⟩
  | executor => exact ⟨5 * t + 2, by omega, by simp [roundRobin, Part.turn]⟩
  | sender => exact ⟨5 * t + 3, by omega, by simp [roundRobin, Part.turn]⟩
  | writer => exact ⟨5 * t + 4, by omega, by simp [roundRobin, Part.turn]⟩

theorem fair_connection_finishes_roundRobin :
    Machine.Fair Part.turn roundRobin ∧ ∃ T, ∀ t ≥ T,
      (Machine.orbit (step millionElements (fun _ _ => 0) 64)
        (newConnection [getRequestBytes ++ getRequestBytes]) roundRobin t).AtRest := by
  obtain ⟨T, hT⟩ := fair_connection_finishes (n := 1) millionElements (fun _ _ => 0) 64
    (fun _ => ⟨fun _ => 0, 0⟩) ⟨1000, 100⟩ [] 1 [getRequestBytes ++ getRequestBytes] roundRobin
    fair_roundRobin
  exact ⟨fair_roundRobin, T, fun t ht => (hT t ht).1⟩

end Connection
end Server
end Cachebox
