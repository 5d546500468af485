import Cachebox.Server.Connection

/-!
# What a connection holds

A peer that sends requests and does not read the responses fills the channel of the connection, then
the permits, and then the handler stops reading: what the connection holds is bounded, whatever the
peer does and however long.
-/

namespace Cachebox
namespace Server
open Protocol BigEndian

section Framing
variable {maxPayloadLen : Nat} {buffer : Bytes} {reads : List Bytes}

/-- A frame that is not complete is shorter than the longest frame. -/
theorem length_lt_of_more (h : (nativeFraming maxPayloadLen).verdict buffer = .more) :
    buffer.length < headerLen + maxPayloadLen := by
  change nativeVerdict maxPayloadLen buffer = .more at h
  simp only [nativeVerdict] at h
  split_ifs at h
  · omega
  · omega

theorem more_of_needMore (h : findCompleteNativeFrames buffer maxPayloadLen = .needMore) :
    (nativeFraming maxPayloadLen).verdict buffer = .more := by
  obtain ⟨fs, rest, hsplit⟩ := (nativeFraming maxPayloadLen).exists_split buffer
  rw [findCompleteNativeFrames_eq hsplit] at h
  cases hrest : (nativeFraming maxPayloadLen).verdict rest with
  | frame len => exact absurd hrest (hsplit.rest len)
  | reject =>
    rw [hrest] at h
    cases h
  | more =>
    rw [hrest] at h
    cases fs with
    | nil => rwa [hsplit.eq]
    | cons f fs => cases h

/-- The read loop reads on only while its buffer holds less than a frame. -/
theorem length_readNativeFrameRanges {chunk : Nat}
    (hreads : ∀ read ∈ reads, read.length ≤ chunk)
    (hbuffer : buffer.length < headerLen + maxPayloadLen + chunk) :
    (readNativeFrameRanges maxPayloadLen reads buffer).2.2.length <
        headerLen + maxPayloadLen + chunk ∧
      (readNativeFrameRanges maxPayloadLen reads buffer).2.1 <:+ reads := by
  induction reads generalizing buffer with
  | nil =>
    unfold readNativeFrameRanges
    cases findCompleteNativeFrames buffer maxPayloadLen with
    | frames | close | needMore => exact ⟨hbuffer, List.suffix_rfl⟩
  | cons read reads ih =>
    unfold readNativeFrameRanges
    cases hfind : findCompleteNativeFrames buffer maxPayloadLen with
    | frames | close => exact ⟨hbuffer, List.suffix_rfl⟩
    | needMore =>
      rw [List.forall_mem_cons] at hreads
      dsimp only
      split
      · exact ⟨hbuffer, List.suffix_cons read reads⟩
      · have hmore := length_lt_of_more (more_of_needMore hfind)
        have happend : (buffer ++ read).length < headerLen + maxPayloadLen + chunk := by
          rw [List.length_append]
          omega
        obtain ⟨hlength, hsuffix⟩ := ih hreads.2 happend
        exact ⟨hlength, hsuffix.trans (List.suffix_cons read reads)⟩

/-- The frames that a read returns, and what it leaves in the buffer. -/
theorem split_of_readNativeFrameRanges {reads' : List Bytes} {buffer' : Bytes}
    {ranges : List Range}
    (h : readNativeFrameRanges maxPayloadLen reads buffer = (some ranges, reads', buffer')) :
    ∃ fs rest, ranges.map (Range.slice buffer') = fs ∧ drainFrameRanges buffer' ranges = rest ∧
      (∀ f ∈ fs, (nativeFraming maxPayloadLen).IsFrame f) ∧
      fs.flatten.length + rest.length = buffer'.length := by
  obtain ⟨fs, rest, hne, rfl, hsplit, -⟩ :=
    split_of_findCompleteNativeFrames (readNativeFrameRanges_eq_some h).1
  refine ⟨fs, rest, map_slice_rangesFrom 0 hsplit.eq, drainFrameRanges_rangesFrom 0 hsplit.eq hne,
    hsplit.isFrame, ?_⟩
  rw [hsplit.eq, List.length_append]

end Framing

namespace Connection
variable {n : Nat} {maxPayloadLen chunk : Nat} {c c' : Connection n}

/-- The bounds, for reads of at most `chunk` bytes. -/
structure Bounded (maxPayloadLen chunk : Nat) (c : Connection n) : Prop where
  reads : ∀ read ∈ c.reads, read.length ≤ chunk
  readBuffer : c.readBuffer.length < headerLen + maxPayloadLen + chunk
  frames : c.frames.flatten.length ≤ headerLen + maxPayloadLen + chunk
  complete : ∀ frame ∈ c.frames ++ c.tasks.map Task.frame,
    (nativeFraming maxPayloadLen).IsFrame frame
  inFlight : c.tasks.length + c.sending.length ≤ maxInFlightPerConnection
  channel : c.channel.length ≤ maxInFlightPerConnection

theorem bounded_start (connectionId : UInt64) (server : Threads n) {reads : List Bytes}
    (hreads : ∀ read ∈ reads, read.length ≤ chunk) :
    (start connectionId server reads).Bounded maxPayloadLen chunk :=
  ⟨hreads, by simp [start, headerLen], Nat.zero_le _, List.forall_mem_nil _, Nat.zero_le _,
    Nat.zero_le _⟩

theorem width_le (c : Connection n) : c.width ≤ maxInFlightPerConnection := by
  unfold width
  split <;> decide

theorem Bounded.spawn (h : c.Bounded maxPayloadLen chunk) {frame : Bytes} {frames : List Bytes}
    (hframes : c.frames = frame :: frames) (hroom : c.tasks.length + c.sending.length < c.width)
    (server : Threads n) :
    Bounded maxPayloadLen chunk { c with
      frames
      tasks := c.tasks ++ [⟨c.spawned, frame⟩]
      spawned := c.spawned + 1
      server } := by
  have hflatten := h.frames
  have hcomplete := h.complete
  have hwidth := c.width_le
  rw [hframes] at hflatten hcomplete
  refine ⟨h.reads, h.readBuffer, ?_, ?_, ?_, h.channel⟩
  · rw [List.flatten_cons, List.length_append] at hflatten
    exact (Nat.le_add_left _ _).trans hflatten
  · intro frame' hframe'
    refine hcomplete frame' ?_
    simp only [List.map_append, List.map_cons, List.map_nil, List.mem_append, List.mem_cons,
      List.not_mem_nil, or_false] at hframe' ⊢
    tauto
  · simp only [List.length_append, List.length_singleton]
    omega

theorem Bounded.finish (h : c.Bounded maxPayloadLen chunk) {i : Nat} {t : Task}
    (ht : c.tasks[i]? = some t) (response : Option Bytes) (server : Threads n) :
    ({ c with server }.finish i t.frame response).Bounded maxPayloadLen chunk := by
  obtain ⟨hlt, -⟩ := List.getElem?_eq_some_iff.mp ht
  have herase := List.length_eraseIdx_of_lt hlt
  have hinFlight := h.inFlight
  have hcomplete : ∀ frame ∈ c.frames ++ (c.tasks.eraseIdx i).map Task.frame,
      (nativeFraming maxPayloadLen).IsFrame frame := by
    refine List.forall_mem_append.mpr
      ⟨fun frame hframe => h.complete frame (List.mem_append_left _ hframe),
        List.forall_mem_map.mpr fun task htask => ?_⟩
    exact h.complete _ (List.mem_append_right _
      (List.mem_map_of_mem (List.mem_of_mem_eraseIdx htask)))
  unfold Connection.finish
  dsimp only
  split
  · split
    · refine ⟨h.reads, h.readBuffer, h.frames, hcomplete, ?_, h.channel⟩
      simp only [List.length_append, List.length_singleton]
      omega
    · refine ⟨h.reads, h.readBuffer, h.frames, hcomplete, ?_, h.channel⟩
      dsimp only
      omega
  · split <;>
    · refine ⟨h.reads, h.readBuffer, h.frames, hcomplete, ?_, h.channel⟩
      dsimp only
      omega

theorem Bounded.read (h : c.Bounded maxPayloadLen chunk) {ranges : List Range} {reads : List Bytes}
    {readBuffer : Bytes} {pipelined : Bool} {extracted : List Bytes}
    (hread : readNativeFrameRanges maxPayloadLen c.reads c.readBuffer =
      (some ranges, reads, readBuffer)) :
    Bounded maxPayloadLen chunk { c with
      reads
      readBuffer := drainFrameRanges readBuffer ranges
      pipelined
      frames := ranges.map (Range.slice readBuffer)
      extracted } := by
  obtain ⟨hlength, hsuffix⟩ := length_readNativeFrameRanges h.reads h.readBuffer
  have hreads := fun read hread => h.reads read (hsuffix.subset hread)
  rw [hread] at hlength hreads
  obtain ⟨fs, rest, hfs, hrest, hframes, hlen⟩ := split_of_readNativeFrameRanges hread
  dsimp only at hlength
  rw [hfs, hrest]
  refine ⟨hreads, ?_, ?_, ?_, h.inFlight, h.channel⟩
  · show rest.length < _
    omega
  · show fs.flatten.length ≤ _
    omega
  · exact List.forall_mem_append.mpr ⟨hframes, fun frame hframe =>
      h.complete frame (List.mem_append_right _ hframe)⟩

variable [NeZero n] {alloc : Allocator} {hash : String → Bytes → Nat}

theorem Bounded.of_moves (h : c.Bounded maxPayloadLen chunk) {action : Action}
    {threadAction : Option (Pool.Action Server.Action)}
    {finishing : List (Task × Option ResponseFrame)}
    (hm : Moves alloc hash maxPayloadLen c action threadAction finishing c') :
    c'.Bounded maxPayloadLen chunk := by
  cases hm with
  | idle => exact h
  | close _ _ _ hread =>
    obtain ⟨hlength, hsuffix⟩ := length_readNativeFrameRanges h.reads h.readBuffer
    have hreads := fun read hread => h.reads read (hsuffix.subset hread)
    rw [hread] at hlength hreads
    exact ⟨hreads, hlength, h.frames, h.complete, h.inFlight, h.channel⟩
  | read _ _ _ hread => exact h.read hread
  | spawn hframes hroom => exact h.spawn hframes hroom _
  | work | serve => exact ⟨h.reads, h.readBuffer, h.frames, h.complete, h.inFlight, h.channel⟩
  | finish ht => exact h.finish ht _ _
  | @send task response hresponse hroom =>
    obtain ⟨hlt, -⟩ := List.getElem?_eq_some_iff.mp hresponse
    have herase := List.length_eraseIdx_of_lt hlt
    have hinFlight := h.inFlight
    refine ⟨h.reads, h.readBuffer, h.frames, h.complete, ?_, ?_⟩
    · dsimp only
      omega
    · simp only [List.length_append, List.length_singleton]
      omega
  | write hchannel hrest =>
    have hbound := h.channel
    rw [hchannel, hrest, List.length_cons, List.length_append] at hbound
    refine ⟨h.reads, h.readBuffer, h.frames, h.complete, h.inFlight, ?_⟩
    dsimp only
    omega

omit [NeZero n] in
theorem length_flatten_le {fs : List Bytes}
    (hfs : ∀ f ∈ fs, (nativeFraming maxPayloadLen).IsFrame f) :
    fs.flatten.length ≤ fs.length * (headerLen + maxPayloadLen) := by
  rw [List.length_flatten, ← List.length_map (f := List.length), ← smul_eq_mul]
  refine List.sum_le_card_nsmul _ _ (List.forall_mem_map.mpr fun f hf => ?_)
  obtain ⟨hlen, hmax⟩ := isFrame_iff.mp (hfs f hf)
  omega

/-- **A connection holds only so much**, whatever the peer sends, whether it reads the responses or
not, and however the parts of the connection take turns: at most 128 requests are being executed or
wait for room in the channel, at most 128 responses wait in the channel, and the bytes of requests
that have been received and not been executed are those of 130 frames and two reads at most. -/
theorem connection_memory_bounded (alloc : Allocator) (hash : String → Bytes → Nat)
    (maxPayloadLen chunk : Nat) (connectionId : UInt64) (server : Threads n) (reads : List Bytes)
    (hreads : ∀ read ∈ reads, read.length ≤ chunk) (actions : List Action) :
    let c := (start connectionId server reads).run alloc hash maxPayloadLen actions
    c.tasks.length + c.sending.length ≤ maxInFlightPerConnection ∧
      c.channel.length ≤ maxInFlightPerConnection ∧
      c.readBuffer.length + c.frames.flatten.length + (c.tasks.map Task.frame).flatten.length <
        (maxInFlightPerConnection + 2) * (headerLen + maxPayloadLen) + 2 * chunk := by
  intro c
  have h : c.Bounded maxPayloadLen chunk := Machine.run_invariant
    (fun c action h => h.of_moves (moves_step c action)) (bounded_start connectionId server hreads)
    actions
  refine ⟨h.inFlight, h.channel, ?_⟩
  have htasks := length_flatten_le fun frame hframe =>
    h.complete frame (List.mem_append_right _ hframe)
  rw [List.length_map] at htasks
  have hcount : c.tasks.length * (headerLen + maxPayloadLen) ≤
      maxInFlightPerConnection * (headerLen + maxPayloadLen) :=
    Nat.mul_le_mul_right _ ((Nat.le_add_right _ _).trans h.inFlight)
  have hbuffer := h.readBuffer
  have hframes := h.frames
  rw [Nat.add_mul]
  omega

/-- A peer that sends two requests in one read and reads nothing. -/
theorem connection_memory_bounded_pipelinedGets :
    let c := (start 1 (.fromConfig (fun _ => ⟨fun _ => 0, 0⟩) ⟨1000, 100⟩ : Threads 1)
      [getRequestBytes ++ getRequestBytes]).run millionElements (fun _ _ => 0) 64
      [.receive, .spawn .asStored, .spawn .asStored, .advance 1, .advance 1, .send 0]
    c.tasks.length = 1 ∧ c.channel.length = 1 ∧
      c.readBuffer.length + c.frames.flatten.length + (c.tasks.map Task.frame).flatten.length <
        130 * (headerLen + 64) + 2 * 100 :=
  ⟨by decide +kernel, by decide +kernel, (connection_memory_bounded millionElements (fun _ _ => 0)
    64 100 1 _ [getRequestBytes ++ getRequestBytes] (by decide +kernel)
    [.receive, .spawn .asStored, .spawn .asStored, .advance 1, .advance 1, .send 0]).2.2⟩

end Connection
end Server
end Cachebox
