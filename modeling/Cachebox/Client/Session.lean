import Cachebox.Client.Remote

/-!
# Sessions of the Rust client with the server

A session is a client and the connection on which the server serves it. A call of a method of the
client writes one request, and a pipelined call several; the server executes them along with
whatever else it has to do, and the client reads its results off the bytes that were written.

What comes back is what the engine of the server answered: a request that the format can express is
executed as it was called, once and while the call lasts, and its outcome is reported; any other one
is refused without effect.
-/

namespace Cachebox

/-! ## The client reads the responses -/

namespace NativeClient
open Protocol NativeStream

/-- How `request` looks at the payload of a response. -/
def checkError : ResponsePayload → Except ClientError ResponsePayload
  | .error code message => .error (.server code message)
  | payload => .ok payload

section
variable {c : NativeClient} {command : Command} {payload : RequestPayload}
  {response : ResponsePayload} {bytes answer : Bytes}

/-- No response is too large for the limit of a new client. -/
theorem carries_encode {f : ResponseFrame} (h : encodeResponseFrame f = some answer)
    (hanswers : f.payload.Answers f.command) :
    Answers (header f) answer ∧ PipelinedResponseMatcher.Carries usizeMax answer f := by
  rw [encodeResponseFrame_eq] at h
  split at h
  next hlt =>
    cases h
    have hpayload := payloadLen_frameBytes kindResponse f.command f.requestId hlt []
    rw [List.append_nil] at hpayload
    obtain ⟨bytes, hbytes, hlength, hdecode⟩ := decodeResponseFrame_encodeResponseFrame hanswers
      (by rwa [encodeResponsePayload_eq])
    rw [encodeResponseFrame_eq, if_pos hlt] at hbytes
    cases hbytes
    have hmax : (f.payload.status :: f.payload.body).length ≤ usizeMax := hlt.le.trans (by decide)
    exact ⟨⟨_, hlt, rfl⟩, hlength, hdecode usizeMax (hpayload.trans_le hmax)⟩
  next => cases h

theorem answerOf_encode {requestId : UInt64}
    (h : encodeResponseFrame ⟨requestId, command, response⟩ = some answer)
    (hanswers : response.Answers command) :
    Answers (requestId, command) answer ∧ answerOf usizeMax answer = checkError response := by
  obtain ⟨hanswer, -, hdecode⟩ := carries_encode h hanswers
  refine ⟨hanswer, ?_⟩
  rw [answerOf, decoded, hdecode]
  cases response <;> rfl

/-- A request that is answered returns what the answer says, and the client has read all of it. -/
theorem request_of_answer (hc : c.Aligned)
    (hbytes : encodeRequestFrame ⟨c.nextRequestId, command, payload⟩ = some bytes)
    (hanswer : Answers (c.nextRequestId, command) answer) :
    ∃ c', c.request command payload ⟨false, [answer], none⟩ =
        some (answerOf c.maxPayloadLen answer, c') ∧
      c'.Aligned ∧ c'.maxPayloadLen = c.maxPayloadLen := by
  have hcall : c.request command payload ⟨false, [answer], none⟩ =
      some (perform { c with nextRequestId := advance c.nextRequestId }
        (exchangeOne c.nextRequestId command c.maxPayloadLen ⟨false, [answer], none⟩)) := by
    rw [request, hbytes, exchangeOne]
    rfl
  obtain ⟨hsome, -⟩ | ⟨failsAfter', hexchange⟩ :=
    @exchangeOne_eq ⟨false, [answer], none⟩ _ _ _ hanswer rfl rfl _ hc.unread c.maxPayloadLen
  · cases hsome
  · rw [hcall, perform, hexchange]
    exact ⟨_, rfl, ⟨rfl, advance_ne_zero hc.nextRequestId⟩, rfl⟩

theorem callMethod_of_answer (hc : c.Aligned) (hmax : c.maxPayloadLen = usizeMax)
    (hbytes : encodeRequestFrame ⟨c.nextRequestId, payload.command, payload⟩ = some bytes)
    (h : encodeResponseFrame ⟨c.nextRequestId, payload.command, response⟩ = some answer)
    (hanswers : response.Answers payload.command) :
    ∃ c', c.callMethod payload ⟨false, [answer], none⟩ =
        some (checkError response >>= parseReply payload, c') ∧
      c'.Aligned ∧ c'.maxPayloadLen = usizeMax := by
  obtain ⟨hanswer, hanswerOf⟩ := answerOf_encode h hanswers
  obtain ⟨c', hrequest, haligned, hlimit⟩ := request_of_answer hc hbytes hanswer
  rw [hmax, hanswerOf] at hrequest
  rw [callMethod_eq, hrequest]
  exact ⟨c', rfl, haligned, hlimit.trans hmax⟩

end

/-! ## What the caller is told -/

def ofPutError : PutError → ClientError
  | .valueTooLarge .. => .server .valueTooLarge "value exceeds configured value limit"
  | .valueTooLargeForMemory .. => .server .entryTooLarge "entry cannot fit configured memory limit"
  | .insufficientMemory .. =>
    .server .insufficientMemory "entry could not fit after cleanup and eviction"

def ofGetOutcome : GetOutcome → GetResult
  | .hit value => .hit value
  | .stale value => .stale value
  | .miss => .miss

def ofStartLeaseOutcome : StartLeaseOutcome → LeaseStartResult
  | .hit value => .hit value
  | .stale value => .stale value
  | .leaseGranted token staleValue => .leaseGranted token staleValue
  | .leaseDenied => .leaseDenied

/-- What the caller of a method is told about the outcome of the operation on the engine: the same,
with counts that stop at the largest `u32`. There is no method for the other operations. -/
def replyOf : Outcome → Option (Except ClientError Reply)
  | .get outcome => some (.ok (.got (ofGetOutcome outcome)))
  | .put (.ok outcome) | .completeLease (.ok outcome) =>
    some (.ok (.stored (Server.saturateU32 outcome.evicted)))
  | .put (.error error) | .completeLease (.error (.put error)) => some (.error (ofPutError error))
  | .completeLease (.error .invalidLeaseToken) => some (.error
    (.server .invalidLeaseToken "lease token is missing, expired, or no longer active"))
  | .delete removed => some (.ok (.deleted removed))
  | .batchGet outcomes => some (.ok (.batch (outcomes.map ofGetOutcome)))
  | .invalidateTag removed => some (.ok (.invalidated (Server.saturateU32 removed)))
  | .startLease outcome => some (.ok (.lease (ofStartLeaseOutcome outcome)))
  | .getRef _ | .reclaimExpiredBudget _ => none

theorem ofBatchItem_batchItem (outcomes : List GetOutcome) :
    (outcomes.map Server.batchItem).map GetResult.ofBatchItem = outcomes.map ofGetOutcome := by
  rw [List.map_map]
  refine List.map_congr_left fun outcome _ => ?_
  cases outcome <;> rfl

theorem parseReply_zerosAsNone (payload : RequestPayload) :
    parseReply payload.zerosAsNone = parseReply payload := by
  cases payload <;> rfl

theorem checkError_nativePutError (error : PutError) {α : Type}
    (parse : ResponsePayload → Except ClientError α) :
    checkError (Server.nativePutError error) >>= parse = .error (ofPutError error) := by
  cases error <;> rfl

/-- The response to an operation reads as its outcome. -/
theorem replyOf_outcome {o : IterOrder} {payload : RequestPayload} {outcome : Outcome}
    (h : Server.OutcomeOf (Server.requestOp o payload) outcome) :
    replyOf outcome =
      some (checkError (Server.outcomeResponse outcome) >>= parseReply payload) := by
  cases payload with
  | get ns key =>
    cases outcome with
    | get outcome => cases outcome <;> rfl
    | _ => exact h.elim
  | put ns key metadata value =>
    cases outcome with
    | put result =>
      cases result with
      | error error => exact congrArg some (checkError_nativePutError ..).symm
      | ok outcome => rfl
    | _ => exact h.elim
  | delete ns key =>
    cases outcome with
    | delete removed => rfl
    | _ => exact h.elim
  | batchGet ns keys =>
    cases outcome with
    | batchGet outcomes =>
      exact congrArg (fun results => some (Except.ok (Reply.batch results)))
        (ofBatchItem_batchItem outcomes).symm
    | _ => exact h.elim
  | tagInvalidate ns tag =>
    cases outcome with
    | invalidateTag removed => rfl
    | _ => exact h.elim
  | leaseStart ns key leaseTtlMs allowStaleMs =>
    cases outcome with
    | startLease outcome => cases outcome <;> rfl
    | _ => exact h.elim
  | leaseComplete ns key leaseToken metadata value =>
    cases outcome with
    | completeLease result =>
      cases result with
      | ok outcome => rfl
      | error error =>
        cases error with
        | invalidLeaseToken => rfl
        | put error => exact congrArg some (checkError_nativePutError ..).symm
    | _ => exact h.elim

open PipelinedResponseMatcher

section
variable {c : NativeClient} {requests : List (Command × RequestPayload)}
  {ordered : List ResponseFrame} {encoded written : List Bytes}

/-- It does not matter to the client how its input is cut. -/
theorem requestPipelined_flatten (c : NativeClient) (requests : List (Command × RequestPayload))
    (written : List Bytes) : c.requestPipelined requests ⟨false, [written.flatten], none⟩ =
      c.requestPipelined requests ⟨false, written, none⟩ := by
  have hwrite : writeAll ⟨false, [written.flatten], none⟩ = writeAll ⟨false, written, none⟩ := by
    unfold writeAll
    simp only [List.flatten_singleton]
  simp only [requestPipelined, hwrite]

/-- The responses in the order in which they arrive. -/
theorem exists_arrived (hanswers : List.Forall₂ Server.Connection.Encodes ordered encoded)
    (hperm : encoded.Perm written) :
    ∃ responses, ordered.Perm responses ∧
      List.Forall₂ (Carries usizeMax) written responses := by
  have hcomp : Relation.Comp (List.Forall₂ Server.Connection.Encodes) List.Perm ordered written :=
    ⟨encoded, hanswers, hperm⟩
  rw [List.forall₂_comp_perm_eq_perm_comp_forall₂] at hcomp
  obtain ⟨responses, hresponses, hencodes⟩ := hcomp
  exact ⟨responses, hresponses, (hencodes.imp fun _ _ h => (carries_encode h.1 h.2).2).flip⟩

/-- They are the answers that the client waits for. -/
theorem answered_of_encodes (hlen : requests.length ≤ usizeMax)
    (hordered : ordered.map header = sentBy c.nextRequestId requests)
    (hanswers : List.Forall₂ Server.Connection.Encodes ordered encoded)
    (hperm : encoded.Perm written) :
    c.Answered (.requestPipelined requests hlen) ⟨false, written, none⟩ := by
  intro _
  refine ⟨encoded, hperm.symm, ?_⟩
  change List.Forall₂ Answers (sentBy c.nextRequestId requests) encoded
  rw [← hordered, List.forall₂_map_left_iff]
  exact hanswers.imp fun _ _ h => (carries_encode h.1 h.2).1

/-- A pipelined call whose requests are answered, in any order, returns the answers in the order of
the requests, and the client has read all of them. -/
theorem requestPipelined_of_answers (hc : c.Aligned) (hmax : c.maxPayloadLen = usizeMax)
    (hlen : requests.length ≤ usizeMax) (hfits : ∀ r ∈ requests, Encodable r.2)
    (hordered : ordered.map header = sentBy c.nextRequestId requests)
    (hanswers : List.Forall₂ Server.Connection.Encodes ordered encoded)
    (hperm : encoded.Perm written) :
    ∃ c', c.requestPipelined requests ⟨false, [written.flatten], none⟩ =
        some (collect (ordered.map (·.payload)), c') ∧
      c'.Aligned ∧ c'.maxPayloadLen = usizeMax := by
  rw [requestPipelined_flatten]
  by_cases hne : requests = []
  · subst hne
    obtain rfl := List.map_eq_nil_iff.mp hordered
    exact ⟨c, rfl, hc, hmax⟩
  have hlt : requests.length < 2 ^ 64 := hlen.trans_lt (by decide)
  obtain ⟨responses, hresponses, hcarries⟩ := exists_arrived hanswers hperm
  rw [← hmax] at hcarries
  have hdelivers : Delivers c.maxPayloadLen (c.stream.unread ++ written.flatten) responses := by
    refine ⟨written, [], ?_, hcarries⟩
    rw [hc.unread, List.nil_append, List.append_nil]
  have hsent : ((sentBy c.nextRequestId requests).map Prod.fst).Nodup :=
    map_fst_sentBy .. ▸ nodup_requestIds hc.nextRequestId hlt
  have hcount : responses.length = requests.length := by
    rw [← hresponses.length_eq, ← length_sentBy c.nextRequestId requests, ← hordered,
      List.length_map]
  obtain ⟨out, -, hout, hnew, hcall⟩ := requestPipelined_eq hc.nextRequestId hne hlt hfits
    ⟨false, written, none⟩
  have hresult := @exchangeAll_of_delivers ⟨false, written, none⟩
    (.new requests.length out.expected) c.maxPayloadLen c.stream responses rfl rfl hdelivers
  rw [(pushAll_finish hsent hnew (hcount.trans (length_sentBy ..).symm)).2 ordered
    ⟨hresponses, hordered⟩, hcount] at hresult
  -- the client has read what was sent to it
  have hdecodable : c.Decodable ⟨false, written, none⟩ := by
    intro b hb
    obtain ⟨response, -, hcarry⟩ :=
      Delimited.exists_of_forall₂ hcarries (List.mem_of_mem_dropLast hb)
    exact ⟨response, hcarry.2⟩
  rcases hexchange : exchangeAll (.new requests.length out.expected) c.maxPayloadLen
    requests.length ⟨false, written, none⟩ c.stream with ⟨result, stream⟩
  rw [hexchange] at hresult
  cases hresult
  rw [perform, hexchange] at hcall
  have hended :=
    requestPipelined_ended hc (answered_of_encodes hlen hordered hanswers hperm) hcall
  refine ⟨_, hcall, ⟨hended.unread hdecodable ?_, hended.nextRequestId⟩, hmax⟩
  exact collect_ne_io _

end
end NativeClient

/-! ## Sessions -/

/-- A client, and the connection on which the server serves it. -/
structure Session (n : Nat) where
  client : NativeClient
  connection : Server.Connection n

namespace Session
open Protocol Server NativeClient PipelinedResponseMatcher

theorem flatten_map_singleton (bytes : Bytes) : (bytes.map ([·])).flatten = bytes := by
  rw [← List.flatMap_def, List.flatMap_singleton']

theorem ne_nil_of_mem_map_singleton (bytes : Bytes) : ∀ chunk ∈ bytes.map ([·]), chunk ≠ [] := by
  intro chunk h
  obtain ⟨byte, -, rfl⟩ := List.mem_map.mp h
  exact List.cons_ne_nil byte []

/-- Every byte arrives in a read of its own. -/
def bytewise : Cut where
  chunks bytes := bytes.map ([·])
  flatten_chunks := flatten_map_singleton
  ne_nil_of_mem := ne_nil_of_mem_map_singleton

theorem flatten_atOnce (bytes : Bytes) : (if bytes = [] then [] else [bytes]).flatten = bytes := by
  split
  next h => exact h.symm
  next => exact List.flatten_singleton

theorem ne_nil_of_mem_atOnce (bytes : Bytes) :
    ∀ chunk ∈ (if bytes = [] then [] else [bytes]), chunk ≠ [] := by
  intro chunk hchunk
  split at hchunk
  next => cases hchunk
  next h => rwa [List.mem_singleton.mp hchunk]

/-- All bytes arrive in one read. -/
def atOnce : Cut where
  chunks bytes := if bytes = [] then [] else [bytes]
  flatten_chunks := flatten_atOnce
  ne_nil_of_mem := ne_nil_of_mem_atOnce

/-- A method of the client or a pipelined call, with what the connection and the rest of the server
do until it returns; or the rest of the server does something between the calls. -/
inductive Turn where
  | call (cut : Cut) (schedule : List Connection.Action) (payload : RequestPayload)
  | pipeline (cut : Cut) (schedule : List Connection.Action) (payloads : List RequestPayload)
  | serve (action : Pool.Action Server.Action)

/-- What a call returns. -/
inductive Returned where
  | reply (result : Except ClientError Reply)
  | responses (result : Except ClientError (List ResponsePayload))
  deriving DecidableEq

/-- The requests of a pipelined call. -/
def requestsOf (payloads : List RequestPayload) : List (Command × RequestPayload) :=
  payloads.map fun payload => (payload.command, payload)

/-- The request of a call. -/
def requestOf (c : NativeClient) (payload : RequestPayload) : RequestFrame :=
  ⟨c.nextRequestId, payload.command, payload⟩

/-- What the client writes in a pipelined call. -/
def requestBuffer (c : NativeClient) (payloads : List RequestPayload) : Bytes :=
  ((Outgoing.addAll ⟨c.nextRequestId, ∅, []⟩ 0 (requestsOf payloads)).map (·.requestBuffer)).getD []

section
variable {n : Nat}

/-- The connection when the requests are on their way. -/
def arrival (s : Session n) : Turn → Connection n
  | .call cut _ payload =>
    s.connection.arrive cut ((encodeRequestFrame (requestOf s.client payload)).getD [])
  | .pipeline cut _ payloads => s.connection.arrive cut (requestBuffer s.client payloads)
  | .serve _ => s.connection

def Turn.schedule : Turn → List Connection.Action
  | .call _ schedule _ | .pipeline _ schedule _ => schedule
  | .serve action => [.serve action]

def Turn.payloads : Turn → List RequestPayload
  | .call _ _ payload => [payload]
  | .pipeline _ _ payloads => payloads
  | .serve _ => []

variable [NeZero n] (alloc : Allocator) (hash : String → Bytes → Nat) (maxPayloadLen : Nat)

def connect (clocks : Fin n → Clock) (limits : EngineLimits)
    (earlier : List (Pool.Action Server.Action)) (connectionId : UInt64) : Session n :=
  ⟨.connect, .accept alloc hash maxPayloadLen clocks limits earlier connectionId []⟩

/-- The client sends its requests, the server does what the schedule says, and the client reads what
was written for it. A request that does not fit in a frame panics before anything is sent. -/
def turn (s : Session n) (turn : Turn) : Option Returned × Session n :=
  let connection := (s.arrival turn).run alloc hash maxPayloadLen turn.schedule
  let answer := connection.output.drop s.connection.output.length
  match turn with
  | .call _ _ payload =>
    match s.client.callMethod payload ⟨false, [answer], none⟩ with
    | none => (none, s)
    | some (result, client) => (some (.reply result), { client, connection })
  | .pipeline _ _ payloads =>
    match s.client.requestPipelined (requestsOf payloads) ⟨false, [answer], none⟩ with
    | none => (none, s)
    | some (result, client) => (some (.responses result), { client, connection })
  | .serve _ => (none, { s with connection })

/-- What the threads of the server do in a turn. -/
def threadActions (s : Session n) (turn : Turn) : List (Pool.Action Server.Action) :=
  (s.arrival turn).threadActions alloc hash maxPayloadLen turn.schedule

end

section
variable {n : Nat} [NeZero n] {alloc : Allocator} {hash : String → Bytes → Nat}
  {maxPayloadLen : Nat} {p : Process n} {s : Session n}

/-- The requests of the turn are within the limits of the format and of the server, the batches that
tasks read fit in a response, and the schedule goes on until everything is answered. -/
structure Allowed (alloc : Allocator) (hash : String → Bytes → Nat) (maxPayloadLen : Nat)
    (s : Session n) (turn : Turn) : Prop where
  count : turn.payloads.length ≤ usizeMax
  length : ∀ payload ∈ turn.payloads,
    (payload.wire 0).length ≤ maxPayloadLen ∧ (payload.wire 0).length < 2 ^ 32
  tags : ∀ payload ∈ turn.payloads, payload.tags.length ≤ 65535
  batch : ∀ ev ∈ Machine.history (Connection.step alloc hash maxPayloadLen) (s.arrival turn)
    turn.schedule, ev.before.batchFits alloc hash maxPayloadLen ev.action
  caughtUp : ((s.arrival turn).run alloc hash maxPayloadLen turn.schedule).CaughtUp

theorem allowed_iff {turn : Turn} :
    s.Allowed alloc hash maxPayloadLen turn ↔ turn.payloads.length ≤ usizeMax ∧
      (∀ payload ∈ turn.payloads,
        (payload.wire 0).length ≤ maxPayloadLen ∧ (payload.wire 0).length < 2 ^ 32) ∧
      (∀ payload ∈ turn.payloads, payload.tags.length ≤ 65535) ∧
      (∀ ev ∈ Machine.history (Connection.step alloc hash maxPayloadLen) (s.arrival turn)
        turn.schedule, ev.before.batchFits alloc hash maxPayloadLen ev.action) ∧
      ((s.arrival turn).run alloc hash maxPayloadLen turn.schedule).CaughtUp :=
  ⟨fun h => ⟨h.count, h.length, h.tags, h.batch, h.caughtUp⟩,
    fun h => ⟨h.1, h.2.1, h.2.2.1, h.2.2.2.1, h.2.2.2.2⟩⟩

instance (s : Session n) (turn : Turn) : Decidable (s.Allowed alloc hash maxPayloadLen turn) :=
  decidable_of_iff' _ allowed_iff

/-- Between two calls. The connection may have become pipelined. -/
structure AtRest (alloc : Allocator) (hash : String → Bytes → Nat) (maxPayloadLen : Nat)
    (p : Process n) (s : Session n) : Prop where
  aligned : s.client.Aligned
  limit : s.client.maxPayloadLen = usizeMax
  ready : s.connection.Ready alloc hash maxPayloadLen p

/-! ### The requests on their way -/

omit [NeZero n] in
theorem arrive_nil (cut : Cut) (c : Connection n) : c.arrive cut [] = c := by
  have hchunks : cut.chunks [] = [] := by
    refine List.eq_nil_iff_forall_not_mem.mpr fun chunk hchunk => ?_
    have hnil := List.flatten_eq_nil_iff.mp (cut.flatten_chunks []) chunk hchunk
    exact cut.ne_nil_of_mem [] chunk hchunk hnil
  rw [Connection.arrive, hchunks, List.append_nil]

theorem forall₂_of_mapM {α β : Type} {f : α → Option β} {as : List α} {bs : List β}
    (h : as.mapM f = some bs) : List.Forall₂ (fun a b => f a = some b) as bs := by
  induction as generalizing bs with
  | nil =>
    cases h
    exact .nil
  | cons a as ih =>
    rw [List.mapM_cons, Option.bind_eq_bind, Option.bind_eq_some_iff] at h
    obtain ⟨b, hb, h⟩ := h
    rw [Option.bind_eq_bind, Option.bind_eq_some_iff] at h
    obtain ⟨bs', hbs', h⟩ := h
    cases h
    exact .cons hb (ih hbs')

theorem of_mem_requestFrames {id : UInt64} {payloads : List RequestPayload} {request : RequestFrame}
    (h : request ∈ requestFrames id (requestsOf payloads)) :
    request.payload ∈ payloads ∧ request.command = request.payload.command := by
  induction payloads generalizing id with
  | nil => cases h
  | cons payload payloads ih =>
    cases h with
    | head => exact ⟨List.mem_cons_self, rfl⟩
    | tail _ h => exact ⟨List.mem_cons_of_mem _ (ih h).1, (ih h).2⟩

/-- The requests of a turn. -/
def requests (s : Session n) (turn : Turn) : List RequestFrame :=
  requestFrames s.client.nextRequestId (requestsOf turn.payloads)

theorem Allowed.sendable {turn : Turn} (h : s.Allowed alloc hash maxPayloadLen turn) :
    ∀ request ∈ s.requests turn, Connection.Sendable maxPayloadLen request := by
  intro request hrequest
  obtain ⟨hpayload, hcommand⟩ := of_mem_requestFrames hrequest
  exact ⟨hcommand, h.tags _ hpayload, (h.length _ hpayload).1⟩

theorem Allowed.encodable {turn : Turn} (h : s.Allowed alloc hash maxPayloadLen turn) :
    ∀ r ∈ requestsOf turn.payloads, NativeClient.Encodable r.2 := by
  refine List.forall_mem_map.mpr fun payload hpayload => ?_
  rw [NativeClient.Encodable, encodeRequestPayload_eq]
  exact (h.length payload hpayload).2

/-- The bytes that the client writes in a pipelined call are the frames of its requests. -/
theorem exists_frames_of_pipeline {c : NativeClient} (hid : c.nextRequestId ≠ 0)
    {payloads : List RequestPayload} (hcount : payloads.length ≤ usizeMax)
    (hencodable : ∀ r ∈ requestsOf payloads, NativeClient.Encodable r.2) :
    ∃ frames, List.Forall₂ (fun request bytes => encodeRequestFrame request = some bytes)
        (requestFrames c.nextRequestId (requestsOf payloads)) frames ∧
      requestBuffer c payloads = frames.flatten := by
  have hlt : (requestsOf payloads).length < 2 ^ 64 := by
    rw [requestsOf, List.length_map]
    exact hcount.trans_lt (by decide)
  obtain ⟨out, hadd, hout⟩ := Outgoing.addAll_eq hencodable ⟨c.nextRequestId, ∅, []⟩ 0
    (nodup_requestIds hid hlt)
  obtain ⟨frames, hframes, hbuffer⟩ := hout.requestBuffer
  refine ⟨frames, forall₂_of_mapM hframes, ?_⟩
  rw [requestBuffer, hadd, Option.map_some, Option.getD_some, hbuffer]
  rfl

theorem AtRest.exists_frames (h : s.AtRest alloc hash maxPayloadLen p) {turn : Turn}
    (hallowed : s.Allowed alloc hash maxPayloadLen turn) :
    ∃ cut frames, List.Forall₂ (fun request bytes => encodeRequestFrame request = some bytes)
        (s.requests turn) frames ∧ s.arrival turn = s.connection.arrive cut frames.flatten := by
  cases turn with
  | call cut schedule payload =>
    obtain ⟨bytes, hbytes⟩ :
        ∃ bytes, encodeRequestFrame (requestOf s.client payload) = some bytes :=
      (encodable_iff ..).mp (hallowed.encodable (payload.command, payload)
        (List.mem_singleton_self _))
    refine ⟨cut, [bytes], .cons hbytes .nil, ?_⟩
    rw [arrival, hbytes, Option.getD_some, List.flatten_singleton]
  | pipeline cut schedule payloads =>
    obtain ⟨frames, hframes, hbuffer⟩ := exists_frames_of_pipeline h.aligned.nextRequestId
      hallowed.count hallowed.encodable
    exact ⟨cut, frames, hframes, congrArg (s.connection.arrive cut ·) hbuffer⟩
  | serve action => exact ⟨atOnce, [], .nil, (arrive_nil atOnce s.connection).symm⟩

/-! ### Turns -/

/-- What a turn returns when its requests have got these responses. -/
def report : Turn → List ResponsePayload → Option Returned
  | .call _ _ payload, [response] => some (.reply (checkError response >>= parseReply payload))
  | .pipeline .., responses => some (.responses (collect responses))
  | _, _ => none

/-- The client reads its results off the responses. -/
theorem AtRest.turn_eq (h : s.AtRest alloc hash maxPayloadLen p) {turn : Turn}
    (hallowed : s.Allowed alloc hash maxPayloadLen turn) {answers : List ResponseFrame}
    {encoded written : List Bytes} (hheaders : answers.map header = (s.requests turn).map header)
    (hencodes : List.Forall₂ Connection.Encodes answers encoded) (hperm : encoded.Perm written)
    (hwritten : ((s.arrival turn).run alloc hash maxPayloadLen turn.schedule).output.drop
      s.connection.output.length = written.flatten) :
    ∃ client', s.turn alloc hash maxPayloadLen turn =
        (report turn (answers.map (·.payload)),
          ⟨client', (s.arrival turn).run alloc hash maxPayloadLen turn.schedule⟩) ∧
      client'.Aligned ∧ client'.maxPayloadLen = usizeMax := by
  cases turn with
  | call cut schedule payload =>
    obtain ⟨⟨requestId, command, response⟩, rfl⟩ : ∃ answer, answers = [answer] := by
      refine List.length_eq_one_iff.mp ?_
      rw [← List.length_map (f := header), hheaders]
      rfl
    cases hheaders
    cases hencodes with
    | @cons _ answer _ _ hencode hnil =>
      cases hnil
      obtain rfl := List.perm_singleton.mp hperm.symm
      have hbytes := (encodable_iff s.client.nextRequestId payload.command).mp
        (hallowed.encodable (payload.command, payload) (List.mem_singleton_self _))
      obtain ⟨bytes, hbytes⟩ := hbytes
      obtain ⟨client', hcall, haligned, hlimit⟩ :=
        callMethod_of_answer h.aligned h.limit hbytes hencode.1 hencode.2
      rw [List.flatten_singleton] at hwritten
      refine ⟨client', ?_, haligned, hlimit⟩
      simp only [turn, hwritten, hcall]
      rfl
  | pipeline cut schedule payloads =>
    obtain ⟨client', hcall, haligned, hlimit⟩ := requestPipelined_of_answers h.aligned h.limit
      (by rw [requestsOf, List.length_map]; exact hallowed.count) hallowed.encodable hheaders
      hencodes hperm
    rw [Turn.payloads] at hcall
    refine ⟨client', ?_, haligned, hlimit⟩
    simp only [turn, hwritten, hcall]
    rfl
  | serve action => exact ⟨s.client, rfl, h.aligned, h.limit⟩

/-- The log goes on with what the threads of the server do in a turn. -/
structure Extends (alloc : Allocator) (hash : String → Bytes → Nat) (maxPayloadLen : Nat)
    (shards : Fin n → Engine) (s : Session n) (turn : Turn) (s' : Session n)
    (log during : List (Threads.Mark n)) : Prop where
  logged : s'.connection.Logged alloc hash maxPayloadLen shards (log ++ during)
  visible : during.filter Atomic.Mark.visible =
    s.connection.server.observed alloc hash maxPayloadLen
      (s.threadActions alloc hash maxPayloadLen turn)

/-- One turn from the requests to the results. -/
theorem AtRest.turn (h : s.AtRest alloc hash maxPayloadLen p)
    (hwithin : ShardsWithin (valueBound maxPayloadLen) p.app.engine.shards) {turn : Turn}
    (hallowed : s.Allowed alloc hash maxPayloadLen turn) :
    (s.turn alloc hash maxPayloadLen turn).2.AtRest alloc hash maxPayloadLen p ∧
      ∃ responses, (s.turn alloc hash maxPayloadLen turn).1 = report turn responses ∧
        ∀ {shards log}, s.connection.Logged alloc hash maxPayloadLen shards log → ∃ during,
          Extends alloc hash maxPayloadLen shards s turn (s.turn alloc hash maxPayloadLen turn).2
            log during ∧
          s.connection.ExecutedIn hash (s.requests turn) during responses := by
  obtain ⟨cut, frames, hencode, harrival⟩ := h.exists_frames hallowed
  have hfits := hallowed.batch
  have hcaught := hallowed.caughtUp
  rw [harrival] at hfits hcaught
  obtain ⟨hready, answers, encoded, written, hheaders, hencodes, hperm, hwritten, hlogs⟩ :=
    h.ready.answers hwithin hencode hallowed.sendable hfits hcaught
  rw [← harrival] at hready hwritten
  obtain ⟨client', hturn, haligned, hlimit⟩ :=
    h.turn_eq hallowed hheaders hencodes hperm hwritten
  rw [hturn]
  refine ⟨⟨haligned, hlimit, hready⟩, _, rfl, fun hlogged => ?_⟩
  obtain ⟨during, hextended, hvisible, hexecuted⟩ := hlogs hlogged
  rw [← harrival] at hextended hvisible
  exact ⟨during, ⟨hextended, hvisible⟩, hexecuted⟩

/-! ### Runs of turns -/

/-- The calls of a run are within the limits, and each of them is given the time to end. -/
def Lets (alloc : Allocator) (hash : String → Bytes → Nat) (maxPayloadLen : Nat) (s : Session n) :
    Turn → Prop
  | .serve _ => True
  | turn => s.Allowed alloc hash maxPayloadLen turn

instance (s : Session n) : ∀ turn, Decidable (s.Lets alloc hash maxPayloadLen turn)
  | .serve _ => .isTrue trivial
  | .call cut schedule payload =>
    inferInstanceAs (Decidable (s.Allowed alloc hash maxPayloadLen (.call cut schedule payload)))
  | .pipeline cut schedule payloads =>
    inferInstanceAs
      (Decidable (s.Allowed alloc hash maxPayloadLen (.pipeline cut schedule payloads)))

/-- What the rest of the server does between the calls leaves the connection at rest. -/
theorem caughtUp_serve {c : Connection n} (h : c.CaughtUp) (action : Pool.Action Server.Action) :
    (c.run alloc hash maxPayloadLen [.serve action]).CaughtUp := by
  have hm := @Connection.moves_step n _ alloc hash maxPayloadLen c (.serve action)
  show ((c.step alloc hash maxPayloadLen (.serve action)).2).CaughtUp
  generalize (c.step alloc hash maxPayloadLen (.serve action)).2 = c' at hm ⊢
  generalize c.threadAction (.serve action) = threadAction at hm
  generalize c.finishing alloc hash maxPayloadLen (.serve action) = finishing at hm
  cases hm with
  | idle => exact h
  | serve => exact ⟨h.settled, h.reads, h.readBuffer, h.phase⟩

theorem finishing_serve (c : Connection n) (action : Pool.Action Server.Action) :
    c.finishing alloc hash maxPayloadLen (.serve action) = [] := by
  unfold Connection.finishing
  split <;> rfl

theorem AtRest.allowed (h : s.AtRest alloc hash maxPayloadLen p) {turn : Turn}
    (hlets : s.Lets alloc hash maxPayloadLen turn) : s.Allowed alloc hash maxPayloadLen turn := by
  cases turn with
  | call | pipeline => exact hlets
  | serve action =>
    refine ⟨Nat.zero_le _, List.forall_mem_nil _, List.forall_mem_nil _, ?_,
      caughtUp_serve h.ready.1 action⟩
    intro ev hev
    obtain rfl := List.mem_singleton.mp hev
    have hfinishing : Connection.finishing alloc hash maxPayloadLen _ (.serve action) = [] :=
      finishing_serve (s.arrival (.serve action)) action
    rw [Connection.batchFits]
    exact Bool.or_eq_true_iff.mpr (.inr (hfinishing ▸ rfl))

theorem atRest_connect (clocks : Fin n → Clock) (limits : EngineLimits)
    (earlier : List (Pool.Action Server.Action)) (connectionId : UInt64) :
    (connect alloc hash maxPayloadLen clocks limits earlier connectionId).AtRest alloc hash
      maxPayloadLen ⟨.fromConfig clocks limits, false⟩ where
  aligned := ⟨rfl, by simp [connect, NativeClient.connect]⟩
  limit := rfl
  ready := ⟨⟨⟨rfl, rfl, rfl, rfl⟩, rfl, rfl, rfl⟩, List.forall_mem_nil _, _, _, _,
    Connection.ledger_start _ earlier connectionId [], Connection.lossless_start ..⟩

/-- There is a log of what the server did before. -/
theorem exists_logged_connect (clocks : Fin n → Clock) (limits : EngineLimits)
    (earlier : List (Pool.Action Server.Action)) (connectionId : UInt64) :
    ∃ log, (connect alloc hash maxPayloadLen clocks limits earlier connectionId).connection.Logged
      alloc hash maxPayloadLen (AppState.fromConfig clocks limits).engine.shards log := by
  have hstart := (Work.implementation alloc hash maxPayloadLen).explains_start
    ⟨.fromConfig clocks limits, false⟩
  obtain ⟨log, hexplains, hvisible⟩ := hstart.run (earlier.map elsewhere)
  refine ⟨log, hexplains, fun index _ => hstart.ofThread_eq_nil hexplains rfl ?_⟩
  rw [hvisible]
  exact Connection.seen_elsewhere _ earlier index

/-- What comes of a call, by the operations of its thread on shards of the engine and for the
caller. -/
inductive Reported (hash : String → Bytes → Nat) (o : IterOrder) (payload : RequestPayload) :
    List (Call.ShardOp n × Outcome) → Except ClientError Reply → Prop
  | accepted {done : List (Call.ShardOp n × Outcome)} {outcome : Outcome}
    {result : Except ClientError Reply} : payload.zerosAsNone.WellFormed →
    Call.Returns hash (requestOp o payload.zerosAsNone) done outcome →
    replyOf outcome = some result → Reported hash o payload done result
  | refused (e : DecodeError) : ¬ payload.zerosAsNone.WellFormed →
    Reported hash o payload [] (.error (.server (nativeDecodeErrorCode e) (debugText e)))

/-- The log `during` shows the execution of the request by thread `t`, and nothing else that the
thread has done, and the caller is told what came of it. -/
def ReportedBy (hash : String → Bytes → Nat) (connectionId : UInt64)
    (during : List (Threads.Mark n)) (request : RequestFrame) (t : Nat)
    (result : Except ClientError Reply) : Prop :=
  ∃ o bytes done response, encodeRequestFrame request = some bytes ∧
    Atomic.ofThread t during = Atomic.completed t (.frame o connectionId bytes) done response ∧
    Reported hash o request.payload done result

theorem reportedBy_of_executedBy {shards : Fin n → Engine} {log during : List (Threads.Mark n)}
    {c : Connection n} (hlogged : c.Logged alloc hash maxPayloadLen shards (log ++ during))
    (hwithin : ShardsWithin (valueBound maxPayloadLen) shards) {request : RequestFrame} {t : Nat}
    {response : ResponsePayload} {connectionId : UInt64}
    (h : Connection.ExecutedBy hash connectionId during request t response) :
    ReportedBy hash connectionId during request t
      (checkError response >>= parseReply request.payload) := by
  obtain ⟨o, bytes, done, hbytes, hcompleted, hexecuted⟩ := h
  refine ⟨o, bytes, done, _, hbytes, hcompleted, ?_⟩
  cases hexecuted with
  | refused e hwell => exact .refused e hwell
  | accepted hwell hreturns =>
    refine .accepted hwell hreturns ?_
    have hreal : ∀ x ∈ done, Real (valueBound maxPayloadLen) x := by
      intro x hx
      refine real_of_explains hlogged.explains hwithin x ?_
      rw [Atomic.effects_append]
      exact List.mem_append_right _ (Atomic.mem_effects_of_completed hcompleted x hx)
    rw [replyOf_outcome (outcomeOf_returns hreturns hreal), parseReply_zerosAsNone]

/-- The results of every turn are read off responses, and every log goes on with the executions by
which the requests of the turn got them. -/
theorem turns_report (clocks : Fin n → Clock) (limits : EngineLimits)
    (earlier : List (Pool.Action Server.Action)) (connectionId : UInt64) {turns : List Turn}
    (hlets : ∀ ev ∈ Machine.history (turn alloc hash maxPayloadLen)
      (connect alloc hash maxPayloadLen clocks limits earlier connectionId) turns,
      ev.before.Lets alloc hash maxPayloadLen ev.action) :
    ∀ ev ∈ Machine.history (turn alloc hash maxPayloadLen)
        (connect alloc hash maxPayloadLen clocks limits earlier connectionId) turns,
      ∃ responses, ev.outcome = report ev.action responses ∧
        ∀ {shards log}, ev.before.connection.Logged alloc hash maxPayloadLen shards log → ∃ during,
          Extends alloc hash maxPayloadLen shards ev.before ev.action ev.after log during ∧
          ev.before.connection.ExecutedIn hash (ev.before.requests ev.action) during responses := by
  have hwithin := @shardsWithin_fromConfig n clocks limits (valueBound maxPayloadLen)
  exact Machine.forall_mem_history
    (I := AtRest alloc hash maxPayloadLen ⟨.fromConfig clocks limits, false⟩)
    (fun s turn hok hs => (hs.turn hwithin (hs.allowed hok)).1)
    (fun s turn hok hs => (hs.turn hwithin (hs.allowed hok)).2)
    (atRest_connect clocks limits earlier connectionId) hlets

/-- **Calls report what the engine did.** In every run of a session, whatever the server did before
and does between and during the calls, in whatever reads the requests arrive and however the threads
take turns, there is a log of the operations on the shards of the engine that goes on in every turn.
For a call it goes on with the execution of the request by a thread of its own, once and without
anything else that the thread does, and the call returns what the engine answered there. A request
that the format cannot express has no operations and is refused. -/
theorem remote_calls_report_engine (clocks : Fin n → Clock) (limits : EngineLimits)
    (earlier : List (Pool.Action Server.Action)) (connectionId : UInt64) (turns : List Turn)
    (hlets : ∀ ev ∈ Machine.history (turn alloc hash maxPayloadLen)
      (connect alloc hash maxPayloadLen clocks limits earlier connectionId) turns,
      ev.before.Lets alloc hash maxPayloadLen ev.action) :
    let shards := (AppState.fromConfig clocks limits).engine.shards
    (∃ log, (connect alloc hash maxPayloadLen clocks limits earlier connectionId).connection.Logged
      alloc hash maxPayloadLen shards log) ∧
    ∀ ev ∈ Machine.history (turn alloc hash maxPayloadLen)
        (connect alloc hash maxPayloadLen clocks limits earlier connectionId) turns,
      ∀ log, ev.before.connection.Logged alloc hash maxPayloadLen shards log → ∃ during,
        Extends alloc hash maxPayloadLen shards ev.before ev.action ev.after log during ∧
        ∀ cut schedule payload, ev.action = .call cut schedule payload → ∃ result,
          ev.outcome = some (.reply result) ∧
          ReportedBy hash ev.before.connection.connectionId during
            (requestOf ev.before.client payload) (ownThread ev.before.connection.spawned)
            result := by
  intro shards
  refine ⟨exists_logged_connect .., fun ev hev log hlogged => ?_⟩
  obtain ⟨responses, houtcome, hlogs⟩ :=
    turns_report clocks limits earlier connectionId hlets ev hev
  obtain ⟨during, hextends, hexecuted⟩ := hlogs hlogged
  refine ⟨during, hextends, ?_⟩
  intro cut schedule payload haction
  rw [haction] at houtcome hexecuted
  cases hexecuted.executed with
  | cons hby hnil =>
    cases hnil
    exact ⟨_, houtcome, reportedBy_of_executedBy hextends.logged
      (shardsWithin_fromConfig clocks limits) hby⟩

/-- A session with a new server. -/
def emptySession : Session 1 :=
  @connect 1 neZero_one millionElements (fun _ _ => 0) 1024 (fun _ => ⟨fun _ => 0, 0⟩) ⟨1000, 100⟩
    [] 1

/-- A value is stored and read back, byte by byte, while an expiration tick is under way. -/
def putThenGet : List Turn :=
  [.call bytewise (.replicate 73 .receive ++ [.spawn .asStored, .advance 0, .advance 0, .advance 0])
      (.put "default" [1] default [7]),
    .serve (.call 0 (.expirationTick 10)),
    .call bytewise
      (.replicate 40 .receive ++ [.spawn .asStored, .advance 0, .serve (.advance 0), .advance 0])
      (.get "default" [1])]

theorem remote_calls_report_engine_putThenGet :
    let shards := (@AppState.fromConfig 1 (fun _ => ⟨fun _ => 0, 0⟩) ⟨1000, 100⟩).engine.shards
    let history :=
      Machine.history (turn millionElements (fun _ _ => 0) 1024) emptySession putThenGet
    history.map (·.outcome) =
        [some (.reply (.ok (.got (.hit [7])))), none, some (.reply (.ok (.stored 0)))] ∧
      ∀ ev ∈ history, ∀ log,
        ev.before.connection.Logged millionElements (fun _ _ => 0) 1024 shards log → ∃ during,
          Extends millionElements (fun _ _ => 0) 1024 shards ev.before ev.action ev.after log
            during ∧
          ∀ cut schedule payload, ev.action = .call cut schedule payload → ∃ result,
            ev.outcome = some (.reply result) ∧
            ReportedBy (fun _ _ => 0) ev.before.connection.connectionId during
              (requestOf ev.before.client payload) (ownThread ev.before.connection.spawned)
              result :=
  ⟨by decide +kernel, (remote_calls_report_engine (fun _ => ⟨fun _ => 0, 0⟩) ⟨1000, 100⟩ [] 1
    putThenGet (by decide +kernel)).2⟩

/-- **Pipelined calls return what the engine did, in the order of their requests.** In every run of
a session, whatever the server did before and does between and during the calls, in whatever reads
the requests arrive and in whatever order the tasks are executed, section by section, and send and
write their responses, there is a log of the operations on the shards of the engine that goes on in
every turn. For a pipelined call it goes on with the executions of its requests, each once and by a
thread of its own, and with nothing else that the connection does. The call returns the responses
that the requests got there, one for each request and in their order, or the first of the errors
among them. -/
theorem pipelined_calls_report_engine (clocks : Fin n → Clock) (limits : EngineLimits)
    (earlier : List (Pool.Action Server.Action)) (connectionId : UInt64) (turns : List Turn)
    (hlets : ∀ ev ∈ Machine.history (turn alloc hash maxPayloadLen)
      (connect alloc hash maxPayloadLen clocks limits earlier connectionId) turns,
      ev.before.Lets alloc hash maxPayloadLen ev.action) :
    let shards := (AppState.fromConfig clocks limits).engine.shards
    (∃ log, (connect alloc hash maxPayloadLen clocks limits earlier connectionId).connection.Logged
      alloc hash maxPayloadLen shards log) ∧
    ∀ ev ∈ Machine.history (turn alloc hash maxPayloadLen)
        (connect alloc hash maxPayloadLen clocks limits earlier connectionId) turns,
      ∀ log, ev.before.connection.Logged alloc hash maxPayloadLen shards log → ∃ during,
        Extends alloc hash maxPayloadLen shards ev.before ev.action ev.after log during ∧
        ∀ cut schedule payloads, ev.action = .pipeline cut schedule payloads → ∃ responses,
          ev.outcome = some (.responses (collect responses)) ∧
          ev.before.connection.ExecutedIn hash
            (requestFrames ev.before.client.nextRequestId (requestsOf payloads)) during
            responses := by
  intro shards
  refine ⟨exists_logged_connect .., fun ev hev log hlogged => ?_⟩
  obtain ⟨responses, houtcome, hlogs⟩ :=
    turns_report clocks limits earlier connectionId hlets ev hev
  obtain ⟨during, hextends, hexecuted⟩ := hlogs hlogged
  refine ⟨during, hextends, ?_⟩
  intro cut schedule payloads haction
  rw [haction] at houtcome hexecuted
  exact ⟨responses, houtcome, hexecuted⟩

/-- A write and a read of the same key in one call. The task of the read is faster. -/
def readOvertakes : List Turn :=
  [.pipeline atOnce
    [.receive, .spawn .asStored, .spawn .asStored, .advance 1, .advance 0, .advance 1,
      .serve (.call 0 (.expirationTick 10)), .send 0, .advance 0, .advance 0, .send 0, .write]
    [.put "default" [1] default [7], .get "default" [1]]]

theorem pipelined_calls_report_engine_readOvertakes :
    let shards := (@AppState.fromConfig 1 (fun _ => ⟨fun _ => 0, 0⟩) ⟨1000, 100⟩).engine.shards
    let history :=
      Machine.history (turn millionElements (fun _ _ => 0) 1024) emptySession readOvertakes
    history.map (·.outcome) = [some (.responses (.ok [.stored 0, .miss]))] ∧
      ∀ ev ∈ history, ∀ log,
        ev.before.connection.Logged millionElements (fun _ _ => 0) 1024 shards log → ∃ during,
          Extends millionElements (fun _ _ => 0) 1024 shards ev.before ev.action ev.after log
            during ∧
          ∀ cut schedule payloads, ev.action = .pipeline cut schedule payloads → ∃ responses,
            ev.outcome = some (.responses (collect responses)) ∧
            ev.before.connection.ExecutedIn (fun _ _ => 0)
              (requestFrames ev.before.client.nextRequestId (requestsOf payloads)) during
              responses :=
  ⟨by decide +kernel, (pipelined_calls_report_engine (fun _ => ⟨fun _ => 0, 0⟩) ⟨1000, 100⟩ [] 1
    readOvertakes (by decide +kernel)).2⟩

end
end Session
end Cachebox
