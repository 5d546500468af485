import Cachebox.Server.Connection

/-!
# The writer of a pipelined connection

`spawn_native_writer_task` waits for a response and writes it together with the responses that it
then finds in the channel. The other tasks send while it looks, so each of its calls may find more
than the one before. In `Connection` the writer takes its turn at once; here every call has a
moment of its own: a schedule says how many responses arrive between two calls. Whatever the
schedule is, all responses are written, whole and in their order.
-/

namespace Cachebox
namespace Server

/-! ## The channel -/

/-- The receiving end of the channel. -/
structure Receiver where
  queued : List Bytes
  /-- What is still to arrive, in its order. Then the senders are gone. -/
  coming : List Bytes
  /-- How many responses arrive before each call. -/
  schedule : Nat → Nat
  /-- How many calls have been made. -/
  calls : Nat

namespace Receiver

/-- The channel before the first response has arrived. -/
def start (responses : List Bytes) (schedule : Nat → Nat) : Receiver := ⟨[], responses, schedule, 0⟩

/-- The moment of the next call. -/
def arrive (rx : Receiver) : Receiver :=
  let arrived := rx.schedule rx.calls
  { rx with
    queued := rx.queued ++ rx.coming.take arrived
    coming := rx.coming.drop arrived
    calls := rx.calls + 1 }

/-- `recv` waits for the next response if there is none. Without a sender it returns. -/
def recv (rx : Receiver) : Option Bytes × Receiver :=
  let rx := rx.arrive
  match rx.queued, rx.coming with
  | response :: queued, _ => (some response, { rx with queued })
  | [], response :: coming => (some response, { rx with coming })
  | [], [] => (none, rx)

/-- `try_recv` does not wait. -/
def tryRecv (rx : Receiver) : Option Bytes × Receiver :=
  let rx := rx.arrive
  match rx.queued with
  | response :: queued => (some response, { rx with queued })
  | [] => (none, rx)

/-- All that has not been received. -/
def responses (rx : Receiver) : List Bytes := rx.queued ++ rx.coming

@[simp] theorem responses_start (responses : List Bytes) (schedule : Nat → Nat) :
    (start responses schedule).responses = responses := rfl

@[simp] theorem responses_arrive (rx : Receiver) : rx.arrive.responses = rx.responses := by
  rw [responses, arrive, List.append_assoc, List.take_append_drop]
  rfl

variable {rx rx' : Receiver} {response : Bytes}

theorem recv_eq_some (h : rx.recv = (some response, rx')) :
    rx.responses = response :: rx'.responses := by
  rw [← responses_arrive]
  simp only [recv] at h
  split at h
  · next hqueued =>
    cases h
    rw [responses, hqueued]
    rfl
  · next hqueued hcoming =>
    cases h
    rw [responses, hqueued, hcoming]
    rfl
  · cases h

theorem recv_eq_none (h : rx.recv = (none, rx')) : rx.responses = [] := by
  rw [← responses_arrive]
  simp only [recv] at h
  split at h
  · cases h
  · cases h
  · next hqueued hcoming => rw [responses, hqueued, hcoming, List.append_nil]

theorem tryRecv_eq_some (h : rx.tryRecv = (some response, rx')) :
    rx.responses = response :: rx'.responses := by
  rw [← responses_arrive]
  simp only [tryRecv] at h
  split at h
  · next hqueued =>
    cases h
    rw [responses, hqueued]
    rfl
  · cases h

theorem tryRecv_eq_none (h : rx.tryRecv = (none, rx')) : rx.responses = rx'.responses := by
  rw [← responses_arrive]
  simp only [tryRecv] at h
  split at h
  · cases h
  · cases h
    rfl

/-! ## The two loops -/

/-- The loop of `coalesce_native_responses`. -/
def coalesceLoop (batch : Bytes) (frames : Nat) (rx : Receiver) : Bytes × Receiver :=
  if frames < maxResponseWriteBatchFrames ∧ batch.length < maxResponseWriteBatchBytes then
    match rx.tryRecv with
    | (some response, rx) =>
      let exceedsBatchBytes := batch.length + response.length > maxResponseWriteBatchBytes
      let batch := batch ++ response
      if exceedsBatchBytes then (batch, rx) else coalesceLoop batch (frames + 1) rx
    | (none, rx) => (batch, rx)
  else (batch, rx)
termination_by maxResponseWriteBatchFrames - frames

def coalesceNativeResponses (first : Bytes) (rx : Receiver) : Bytes × Receiver :=
  coalesceLoop first 1 rx

/-- The loop adds whole responses to its batch, in their order. When it takes a response there is
still room, so only the last one can exceed the limit. -/
theorem coalesceLoop_spec (batch : Bytes) (frames : Nat) (rx : Receiver) :
    ∃ more, (coalesceLoop batch frames rx).1 = batch ++ more.flatten ∧
      rx.responses = more ++ (coalesceLoop batch frames rx).2.responses ∧
      (more ≠ [] → frames + more.length ≤ maxResponseWriteBatchFrames ∧
        (batch ++ more.dropLast.flatten).length < maxResponseWriteBatchBytes) := by
  fun_induction coalesceLoop batch frames rx with
  | case1 batch frames rx hroom response rx' hrecv exceeds batch' hexceeds =>
    refine ⟨[response], ?_, tryRecv_eq_some hrecv, fun _ => ⟨hroom.1, ?_⟩⟩
    · rw [List.flatten_singleton]
    · rw [List.dropLast_singleton, List.flatten_nil, List.append_nil]
      exact hroom.2
  | case2 batch frames rx hroom response rx' hrecv exceeds batch' hexceeds ih =>
    obtain ⟨more, hflatten, hresponses, hmore⟩ := ih
    refine ⟨response :: more, ?_, ?_, fun _ => ?_⟩
    · rw [hflatten, List.flatten_cons, List.append_assoc]
    · rw [tryRecv_eq_some hrecv, hresponses, List.cons_append]
    · cases more with
      | nil =>
        rw [List.dropLast_singleton, List.flatten_nil, List.append_nil]
        exact hroom
      | cons next more =>
        obtain ⟨hframes, hbytes⟩ := hmore (List.cons_ne_nil next more)
        rw [List.append_assoc] at hbytes
        rw [List.dropLast_cons_cons, List.flatten_cons, List.length_cons]
        exact ⟨by omega, hbytes⟩
  | case3 batch frames rx hroom rx' hrecv =>
    exact ⟨[], (List.append_nil batch).symm, tryRecv_eq_none hrecv, fun h => absurd rfl h⟩
  | case4 batch frames rx hroom =>
    exact ⟨[], (List.append_nil batch).symm, rfl, fun h => absurd rfl h⟩

/-- What one write may hold. -/
structure Batch (responses : List Bytes) : Prop where
  nonempty : 1 ≤ responses.length
  frames : responses.length ≤ maxResponseWriteBatchFrames
  bytes : 1 < responses.length → responses.dropLast.flatten.length < maxResponseWriteBatchBytes

theorem coalesceNativeResponses_spec (first : Bytes) (rx : Receiver) :
    ∃ more, Batch (first :: more) ∧
      (coalesceNativeResponses first rx).1 = (first :: more).flatten ∧
      rx.responses = more ++ (coalesceNativeResponses first rx).2.responses := by
  obtain ⟨more, hflatten, hresponses, hmore⟩ := coalesceLoop_spec first 1 rx
  refine ⟨more, ?_, hflatten, hresponses⟩
  cases more with
  | nil => exact ⟨Nat.le_refl 1, Nat.le_of_ble_eq_true rfl, fun h => absurd h (Nat.lt_irrefl 1)⟩
  | cons next more =>
    obtain ⟨hframes, hbytes⟩ := hmore (List.cons_ne_nil next more)
    refine ⟨Nat.succ_pos _, ?_, fun _ => hbytes⟩
    rw [List.length_cons, Nat.add_comm]
    exact hframes

/-- Every turn of the writer takes a response off the channel. -/
theorem length_responses_lt {rx rx' : Receiver} {response : Bytes}
    (h : rx.recv = (some response, rx')) :
    (coalesceNativeResponses response rx').2.responses.length < rx.responses.length := by
  obtain ⟨more, -, -, hresponses⟩ := coalesceNativeResponses_spec response rx'
  rw [recv_eq_some h, hresponses, List.length_cons, List.length_append]
  omega

/-- `spawn_native_writer_task`: the buffers that it writes. -/
def spawnNativeWriterTask (rx : Receiver) : List Bytes :=
  match hrecv : rx.recv with
  | (some response, rx') =>
    have := length_responses_lt hrecv
    let written := coalesceNativeResponses response rx'
    written.1 :: spawnNativeWriterTask written.2
  | (none, _) => []
termination_by rx.responses.length

/-- The writer writes all responses in batches. -/
theorem spawnNativeWriterTask_spec (rx : Receiver) :
    ∃ batches : List (List Bytes), spawnNativeWriterTask rx = batches.map List.flatten ∧
      batches.flatten = rx.responses ∧ ∀ batch ∈ batches, Batch batch := by
  fun_induction spawnNativeWriterTask rx with
  | case1 rx response rx' hrecv hlt written ih =>
    obtain ⟨more, hbatch, hflatten, hresponses⟩ := coalesceNativeResponses_spec response rx'
    obtain ⟨batches, hwritten, hall, hbatches⟩ := ih
    refine ⟨(response :: more) :: batches, ?_, ?_, List.forall_mem_cons.mpr ⟨hbatch, hbatches⟩⟩
    · rw [hwritten, hflatten, List.map_cons]
    · rw [List.flatten_cons, hall, recv_eq_some hrecv, hresponses, List.cons_append]
  | case2 rx rx' hrecv =>
    exact ⟨[], rfl, (recv_eq_none hrecv).symm, List.forall_mem_nil _⟩

/-- **Coalescing loses and reorders nothing.** Whatever has arrived at each call, the buffers that
the writer writes are, one after the other, the responses in the order of their arrival. Each buffer
is made of 1 to 32 whole responses, and without its last one it has less than 64 KiB if there are
others. -/
theorem writes_all_in_order (responses : List Bytes) (schedule : Nat → Nat) :
    let written := spawnNativeWriterTask (start responses schedule)
    written.flatten = responses.flatten ∧
    ∃ batches : List (List Bytes), written = batches.map List.flatten ∧
      batches.flatten = responses ∧
      ∀ batch ∈ batches, 1 ≤ batch.length ∧ batch.length ≤ 32 ∧
        (1 < batch.length → batch.dropLast.flatten.length < 64 * 1024) := by
  intro written
  obtain ⟨batches, hwritten, hall, hbatches⟩ :=
    spawnNativeWriterTask_spec (start responses schedule)
  rw [responses_start] at hall
  refine ⟨?_, batches, hwritten, hall, fun batch hbatch => ?_⟩
  · rw [← hall, List.flatten_flatten, ← hwritten]
  · exact ⟨(hbatches batch hbatch).nonempty, (hbatches batch hbatch).frames,
      (hbatches batch hbatch).bytes⟩

/-! ## A turn of the writer -/

/-- With nothing arriving meanwhile, the loop is the one over what waits in the channel. -/
theorem coalesceLoop_of_quiet (batch : Bytes) (frames : Nat) {rx : Receiver}
    (hquiet : ∀ i, rx.schedule i = 0) :
    (coalesceLoop batch frames rx).1 = (coalesceFrom batch frames rx.queued).1 ∧
      (coalesceLoop batch frames rx).2.queued = (coalesceFrom batch frames rx.queued).2 := by
  have harrive : ∀ rx : Receiver, (∀ i, rx.schedule i = 0) →
      rx.arrive = { rx with calls := rx.calls + 1 } := by
    intro rx hquiet
    rw [arrive, hquiet, List.take_zero, List.append_nil, List.drop_zero]
  generalize hqueued : rx.queued = queued
  induction queued generalizing batch frames rx with
  | nil =>
    rw [coalesceLoop]
    simp only [tryRecv, harrive rx hquiet, hqueued, coalesceFrom]
    split
    · exact ⟨rfl, rfl⟩
    · exact ⟨rfl, hqueued⟩
  | cons response queued ih =>
    rw [coalesceLoop]
    simp only [tryRecv, harrive rx hquiet, hqueued, coalesceFrom]
    split
    · split
      · exact ⟨rfl, rfl⟩
      · exact ih _ _ hquiet rfl
    · exact ⟨rfl, hqueued⟩

end Receiver

/-- The writer of `Connection` takes a turn of this one in which nothing arrives. -/
theorem Connection.write_eq_turn {n : Nat} (c : Connection n) {first : Bytes} {channel : List Bytes}
    (h : c.channel = first :: channel) {rx : Receiver} (hqueued : rx.queued = channel)
    (hquiet : ∀ i, rx.schedule i = 0) :
    c.write = { c with
      channel := (Receiver.coalesceNativeResponses first rx).2.queued
      output := c.output ++ (Receiver.coalesceNativeResponses first rx).1 } := by
  obtain ⟨hbatch, hrest⟩ := Receiver.coalesceLoop_of_quiet first 1 hquiet
  rw [Receiver.coalesceNativeResponses, hbatch, hrest, hqueued]
  simp only [Connection.write, h]
  rfl

end Server
end Cachebox
