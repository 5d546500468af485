import Cachebox.Client.Alignment
import Cachebox.Python.Interop

/-!
# The synchronous Python client (`clients/python/python/cachebox/client.py`)

`Client._request` and `ClientPool.acquire`. The lock of a client makes its requests one at a time.
What the socket does during a request is an `Exchange`: the bytes of the response, which come sooner
or later, and the outcomes of the calls of `recv`. A request that waits for a `recv` without an
outcome has not returned and is `none`.

A request that times out leaves its response, or the rest of it, in the socket, and the client stays
in use. The next request reads it.
-/

namespace Cachebox
namespace Python

/-- The exceptions of `_request`. -/
inductive RequestError where
  | encode (e : EncodeError)
  /-- the `OSError` of `sendall`, which a closed socket also raises -/
  | os
  | timeout
  | connectionClosed (message : String)
  | decode (e : DecodeError)
  | unexpectedResponse (message : String)
  | server (code : ErrorCode) (message : String)
  deriving DecidableEq, Repr

/-- The outcome of one call of `recv`: at most `len` bytes, or a timeout. No bytes are the end of
the stream. -/
inductive Recv where
  | chunk (len : Nat)
  | timeout
  deriving DecidableEq, Repr

/-- The bytes that have been sent to the client and not been read, and the outcomes of the calls of
`recv` to come. -/
structure Socket where
  unread : Bytes
  recvs : List Recv
  deriving DecidableEq, Repr

/-- What happens on the connection during one request. -/
structure Exchange where
  sendFails : Bool
  /-- what the server sends for the request -/
  answer : Bytes
  recvs : List Recv

abbrev SocketM := ExceptT RequestError (StateT Socket Option)

namespace Socket

def recv (unread : Bytes) (size : Nat) : Recv → Except RequestError Bytes
  | .chunk len => .ok (unread.take (min len size))
  | .timeout => .error .timeout

/-- The loop of `_read_exact`, which has `chunks` so far. -/
def readChunks (size : Nat) (chunks unread : Bytes) (recvs : List Recv) :
    Option (Except RequestError Bytes × Socket) :=
  if size ≤ chunks.length then
    some (.ok chunks, ⟨unread, recvs⟩)
  else
    match recvs with
    | [] => none
    | outcome :: recvs =>
      match recv unread (size - chunks.length) outcome with
      | .error e => some (.error e, ⟨unread, recvs⟩)
      | .ok [] =>
        some (.error (.connectionClosed "connection closed while reading response"),
          ⟨unread, recvs⟩)
      | .ok chunk => readChunks size (chunks ++ chunk) (unread.drop chunk.length) recvs

def readExact (size : Nat) : SocketM Bytes := fun socket =>
  readChunks size [] socket.unread socket.recvs

def readResponse (maxPayloadLen : Nat) : SocketM ResponseFrame := do
  let header ← readExact headerLen
  let payloadLen := BigEndian.ofBytes (header.extract 16 20)
  let payload ← readExact payloadLen
  match decodeResponseFrame (header ++ payload) maxPayloadLen with
  | .ok response => return response
  | .error e => throw (.decode e)

end Socket

structure Client where
  unread : Bytes
  nextRequestId : Int
  maxPayloadLen : Nat
  closed : Bool
  deriving DecidableEq, Repr

namespace Client

def new (maxPayloadLen : Nat) : Client where
  unread := []
  nextRequestId := 1
  maxPayloadLen := maxPayloadLen
  closed := false

def nextId (c : Client) : Int × Client :=
  let next := c.nextRequestId + 1
  (c.nextRequestId, { c with nextRequestId := if next > 2 ^ 64 - 1 then 1 else next })

def close (c : Client) : Client := { c with closed := true }

/-- What `_request` does after `sendall`. -/
def receive (requestId : Int) (command : Command) (maxPayloadLen : Nat) :
    SocketM ResponsePayload := do
  let response ← Socket.readResponse maxPayloadLen
  if response.requestId ≠ requestId ∨ response.command ≠ command then
    throw (.unexpectedResponse "response request_id or command did not match request")
  match response.payload with
  | .error code message => throw (.server code message)
  | payload => return payload

def request (c : Client) (command : Command) (payload : RequestPayload) (x : Exchange) :
    Option (Except RequestError ResponsePayload × Client) :=
  let (requestId, c) := c.nextId
  match encodeRequestFrame { requestId, command, payload } with
  | .error e => some (.error (.encode e), c)
  | .ok _ =>
    if c.closed || x.sendFails then
      some (.error .os, c)
    else do
      let (result, socket) ← receive requestId command c.maxPayloadLen
        { unread := c.unread ++ x.answer, recvs := x.recvs }
      return (result, { c with unread := socket.unread })

end Client

/-- A client is known by its position. The last one that was put into the queue is the first to be
got out. -/
structure ClientPool where
  clients : List Client
  available : List Nat
  closed : Bool
  deriving DecidableEq, Repr

inductive PoolError where
  | valueError (message : String)
  | clientError (message : String)
  /-- no client became available in time -/
  | empty

namespace ClientPool

def new (clients : List Client) : Except PoolError ClientPool :=
  if clients.isEmpty then
    .error (.valueError "ClientPool requires at least one client")
  else
    .ok { clients, available := (List.range clients.length).reverse, closed := false }

/-- The entry of the context manager `acquire`. -/
def acquire (p : ClientPool) : Except PoolError (Nat × ClientPool) :=
  if p.closed then
    .error (.clientError "client pool is closed")
  else
    match p.available with
    | [] => .error .empty
    | i :: available => .ok (i, { p with available })

/-- The exit of `acquire`, after an exception too. -/
def release (p : ClientPool) (i : Nat) : ClientPool := { p with available := i :: p.available }

def close (p : ClientPool) : ClientPool :=
  if p.closed then p else { p with closed := true, clients := p.clients.map Client.close }

def request (p : ClientPool) (i : Nat) (command : Command) (payload : RequestPayload)
    (x : Exchange) : Option (Except RequestError ResponsePayload × ClientPool) := do
  let c ← p.clients[i]?
  let (result, c) ← c.request command payload x
  return (result, { p with clients := p.clients.set i c })

/-! ## Runs -/

inductive Action where
  | acquire
  | release (i : Nat)
  | request (i : Nat) (command : Command) (payload : RequestPayload) (x : Exchange)
  | closeClient (i : Nat)
  | close

def step (p : ClientPool) : Action → Option ClientPool
  | .acquire =>
    match p.acquire with
    | .ok (_, p) => some p
    | .error _ => some p
  | .release i => some (p.release i)
  | .request i command payload x => (p.request i command payload x).map Prod.snd
  | .closeClient i => some { p with clients := p.clients.modify i Client.close }
  | .close => some p.close

end ClientPool

/-- A response frame with the id and the command of the request. -/
def Answers (requestId : Int) (command : Command) (b : Bytes) : Prop :=
  ∃ sent : UInt64 × Protocol.Command, Protocol.intOf sent.1 = requestId ∧
    sent.2.toPython = command ∧ NativeClient.Answers sent b

/-- The request is sent and answered once, and the server does not close the connection. -/
structure Client.Answered (c : Client) (command : Command) (x : Exchange) : Prop where
  sent : x.sendFails = false
  answers : Answers c.nextRequestId command x.answer
  alive : .chunk 0 ∉ x.recvs

namespace ClientPool

def Answered (p : ClientPool) : Action → Prop
  | .request i command _ x => ∀ c, p.clients[i]? = some c → c.Answered command x
  | _ => True

/-- The runs from `p₀` in which every request is answered, the latest action first. -/
inductive Run (p₀ : ClientPool) : List Action → ClientPool → Prop
  | nil : Run p₀ [] p₀
  | cons {actions : List Action} {a : Action} {p p' : ClientPool} :
    Run p₀ actions p → p.Answered a → p.step a = some p' → Run p₀ (a :: actions) p'

/-- A request on client `i` in which a `recv` times out. -/
def Action.TimesOut (i : Nat) : Action → Prop
  | request j _ _ x => j = i ∧ .timeout ∈ x.recvs
  | _ => False

end ClientPool

/-! ## Reading -/

section
variable {α β : Type}

theorem bind_apply (a : SocketM α) (f : α → SocketM β) (s : Socket) :
    (a >>= f) s =
      match a s with
      | none => none
      | some (.ok v, s) => f v s
      | some (.error e, s) => some (.error e, s) := by
  change (a s).bind (fun p => ExceptT.bindCont f p.1 p.2) = _
  cases a s with
  | none => rfl
  | some p =>
    obtain ⟨r, s⟩ := p
    cases r <;> rfl

/-- Reading `n` bytes with the outcomes `recvs`: one is missing, one is a timeout, or the result
is `r` and `rest` has not been read. -/
inductive Reading (recvs : List Recv) (n : Nat) (r : Except RequestError α) (rest : Bytes) :
    Option (Except RequestError α × Socket) → Prop
  | waiting : recvs.length < n → Reading recvs n r rest none
  | timedOut {s : Socket} : .timeout ∈ recvs → Reading recvs n r rest (some (.error .timeout, s))
  | read {recvs' : List Recv} : recvs' <:+ recvs → recvs.length ≤ recvs'.length + n →
    Reading recvs n r rest (some (r, ⟨rest, recvs'⟩))

theorem Reading.bind {recvs : List Recv} {n n' : Nat} {v : α} {r : Except RequestError β}
    {rest rest' : Bytes} {a : SocketM α} {f : α → SocketM β} {s : Socket}
    (h : Reading recvs n (.ok v) rest (a s))
    (hf : ∀ recvs', recvs' <:+ recvs → Reading recvs' n' r rest' (f v ⟨rest, recvs'⟩)) :
    Reading recvs (n + n') r rest' ((a >>= f) s) := by
  rw [bind_apply]
  generalize a s = p at h
  cases h with
  | waiting hlt => exact .waiting (by omega)
  | timedOut hmem => exact .timedOut hmem
  | @read recvs' hsuffix hlen =>
    have hrest := hf recvs' hsuffix
    change Reading recvs (n + n') r rest' (f v ⟨rest, recvs'⟩)
    generalize f v ⟨rest, recvs'⟩ = q at hrest
    cases hrest with
    | waiting hlt => exact .waiting (by omega)
    | timedOut hmem => exact .timedOut (hsuffix.mem hmem)
    | read hsuffix' hlen' => exact .read (hsuffix'.trans hsuffix) (by omega)

theorem Reading.bind_error {recvs : List Recv} {n : Nat} {e : RequestError} {rest : Bytes}
    {a : SocketM α} {s : Socket} (h : Reading recvs n (.error e) rest (a s)) (f : α → SocketM β) :
    Reading recvs n (.error e) rest ((a >>= f) s) := by
  rw [bind_apply]
  generalize a s = p at h
  cases h with
  | waiting hlt => exact .waiting hlt
  | timedOut hmem => exact .timedOut hmem
  | read hsuffix hlen => exact .read hsuffix hlen

/-- An outcome that gives some of the bytes comes before the others. -/
theorem Reading.cons {recvs : List Recv} {n n' : Nat} {r : Except RequestError α} {rest : Bytes}
    {p : Option (Except RequestError α × Socket)} (h : Reading recvs n r rest p) (hn : n < n')
    (outcome : Recv) : Reading (outcome :: recvs) n' r rest p := by
  cases h with
  | waiting hlt => exact .waiting (by rw [List.length_cons]; omega)
  | timedOut hmem => exact .timedOut (List.mem_cons_of_mem _ hmem)
  | read hsuffix hlen =>
    exact .read (hsuffix.trans (List.suffix_cons ..)) (by rw [List.length_cons]; omega)

end

namespace Socket

theorem reading_done (chunks rest : Bytes) (recvs : List Recv) :
    Reading recvs 0 (.ok chunks) rest (readChunks chunks.length chunks rest recvs) := by
  rw [readChunks.eq_def, if_pos (Nat.le_refl _)]
  exact .read List.suffix_rfl (Nat.le_refl _)

theorem readChunks_cons {size : Nat} {chunks chunk unread : Bytes} {outcome : Recv}
    (h : chunks.length < size) (hrecv : recv unread (size - chunks.length) outcome = .ok chunk)
    (hchunk : chunk ≠ []) (recvs : List Recv) :
    readChunks size chunks unread (outcome :: recvs) =
      readChunks size (chunks ++ chunk) (unread.drop chunk.length) recvs := by
  rw [readChunks, if_neg (Nat.not_le.mpr h), hrecv]
  cases chunk with
  | nil => exact absurd rfl hchunk
  | cons byte chunk => rfl

/-- Whatever the sizes of the chunks are, the loop reads the bytes that it is to read. -/
theorem reading_readChunks {recvs : List Recv} (halive : .chunk 0 ∉ recvs) (chunks b rest : Bytes) :
    Reading recvs b.length (.ok (chunks ++ b)) rest
      (readChunks (chunks.length + b.length) chunks (b ++ rest) recvs) := by
  induction recvs generalizing chunks b with
  | nil =>
    cases b with
    | nil =>
      rw [List.append_nil]
      exact reading_done chunks rest []
    | cons byte b =>
      rw [readChunks, if_neg (by rw [List.length_cons]; omega)]
      exact .waiting (Nat.succ_pos _)
  | cons outcome recvs ih =>
    by_cases hb : b = []
    · subst hb
      rw [List.append_nil]
      exact reading_done chunks rest (outcome :: recvs)
    have hpos := List.length_pos_iff.mpr hb
    cases outcome with
    | timeout =>
      rw [readChunks, if_neg (by omega)]
      exact .timedOut List.mem_cons_self
    | chunk len =>
      rw [List.mem_cons, not_or] at halive
      have hlen : 0 < len := Nat.pos_of_ne_zero fun h => halive.1 (by rw [h])
      -- the first chunk of what is left
      obtain ⟨b₁, b₂, rfl, hb₁⟩ : ∃ b₁ b₂, b = b₁ ++ b₂ ∧ b₁.length = min len b.length :=
        ⟨b.take (min len b.length), b.drop (min len b.length), (List.take_append_drop ..).symm,
          List.length_take_of_le (Nat.min_le_right ..)⟩
      have hrecv : recv (b₁ ++ b₂ ++ rest) (chunks.length + (b₁ ++ b₂).length - chunks.length)
          (.chunk len) = .ok b₁ := by
        rw [recv, Nat.add_sub_cancel_left, ← hb₁, List.append_assoc, List.take_left]
      have hne : b₁ ≠ [] := List.length_pos_iff.mp (by omega)
      have hrest := (ih halive.2 (chunks ++ b₁) b₂).cons
        (show b₂.length < (b₁ ++ b₂).length by
          rw [List.length_append]
          exact Nat.lt_add_of_pos_left (List.length_pos_iff.mpr hne)) (.chunk len)
      rwa [readChunks_cons (by omega) hrecv hne, List.append_assoc b₁, List.drop_left,
        List.length_append, ← Nat.add_assoc, ← List.length_append, ← List.append_assoc,
        ← List.length_append]

theorem reading_readExact {recvs : List Recv} (halive : .chunk 0 ∉ recvs) (b rest : Bytes) :
    Reading recvs b.length (.ok b) rest (readExact b.length ⟨b ++ rest, recvs⟩) := by
  have h := reading_readChunks halive [] b rest
  rwa [List.nil_append, List.length_nil, Nat.zero_add] at h

/-- What the client makes of the bytes of a frame. -/
def decoded (maxPayloadLen : Nat) (b : Bytes) : Except RequestError ResponseFrame :=
  (decodeResponseFrame b maxPayloadLen).mapError .decode

theorem reading_readResponse {recvs : List Recv} (halive : .chunk 0 ∉ recvs) {b : Bytes}
    (hb : b.length = Protocol.headerLen + Protocol.payloadLen b) (rest : Bytes)
    (maxPayloadLen : Nat) :
    Reading recvs b.length (decoded maxPayloadLen b) rest
      (readResponse maxPayloadLen ⟨b ++ rest, recvs⟩) := by
  obtain ⟨hd, payload, rfl, hhd, hlen⟩ := Protocol.exists_header_payload hb
  rw [List.append_assoc, readResponse, List.length_append, show headerLen = hd.length from hhd.symm]
  refine (reading_readExact halive hd (payload ++ rest)).bind fun recvs' hsuffix => ?_
  rw [hlen, ← Nat.add_zero payload.length]
  refine (reading_readExact (fun h => halive (hsuffix.mem h)) payload rest).bind
    fun recvs'' hsuffix' => ?_
  rw [decoded]
  cases decodeResponseFrame (hd ++ payload) maxPayloadLen with
  | ok response => exact .read List.suffix_rfl (Nat.le_refl _)
  | error e => exact .read List.suffix_rfl (Nat.le_refl _)

end Socket

theorem Answers.header_eq {requestId : Int} {command : Command} {b : Bytes}
    (h : Answers requestId command b) {maxPayloadLen : Nat} {response : ResponseFrame}
    (hdecode : decodeResponseFrame b maxPayloadLen = .ok response) :
    response.requestId = requestId ∧ response.command = command := by
  obtain ⟨sent, rfl, rfl, hb⟩ := h
  have hoption : (decodeResponseFrame b maxPayloadLen).toOption =
      (Protocol.decodeResponseFrame b maxPayloadLen).toOption.map
        (Protocol.Frame.toPython Protocol.ResponsePayload.toPython) :=
    toOption_decodeFrame conforms_decodeResponsePayload Protocol.kindResponse b maxPayloadLen
  rw [hdecode] at hoption
  cases hrust : Protocol.decodeResponseFrame b maxPayloadLen with
  | error e =>
    rw [hrust] at hoption
    cases hoption
  | ok response' =>
    rw [hrust] at hoption
    cases hoption
    rw [← hb.header_eq hrust]
    exact ⟨rfl, rfl⟩

namespace Client

/-- What the response to a request says. -/
def answerOf (maxPayloadLen : Nat) (b : Bytes) : Except RequestError ResponsePayload :=
  match decodeResponseFrame b maxPayloadLen with
  | .error e => .error (.decode e)
  | .ok response =>
    match response.payload with
    | .error code message => .error (.server code message)
    | payload => .ok payload

theorem reading_receive {recvs : List Recv} (halive : .chunk 0 ∉ recvs) {requestId : Int}
    {command : Command} {b : Bytes} (hb : Answers requestId command b) (maxPayloadLen : Nat) :
    Reading recvs b.length (answerOf maxPayloadLen b) []
      (receive requestId command maxPayloadLen ⟨b ++ [], recvs⟩) := by
  obtain ⟨sent, -, -, hframe⟩ := id hb
  have hread := Socket.reading_readResponse halive hframe.length_eq [] maxPayloadLen
  rw [receive, answerOf]
  rw [Socket.decoded] at hread
  cases hdecode : decodeResponseFrame b maxPayloadLen with
  | error e =>
    rw [hdecode] at hread
    exact hread.bind_error _
  | ok response =>
    rw [hdecode] at hread
    obtain ⟨hid, hcommand⟩ := hb.header_eq hdecode
    rw [← Nat.add_zero b.length]
    refine Reading.bind hread fun recvs' _ => ?_
    rw [if_neg (by simp [hid, hcommand])]
    obtain ⟨_, _, payload⟩ := response
    cases payload <;> exact .read List.suffix_rfl (Nat.le_refl _)

/-- What a request returns if it reads its own response. -/
def ownResult (c : Client) (command : Command) (payload : RequestPayload) (x : Exchange) :
    Except RequestError ResponsePayload :=
  match encodeRequestFrame { requestId := c.nextRequestId, command, payload } with
  | .error e => .error (.encode e)
  | .ok _ => answerOf c.maxPayloadLen x.answer

/-- What a request on a client that has read everything ends with. -/
inductive Ended (c : Client) (command : Command) (payload : RequestPayload) (x : Exchange) :
    Option (Except RequestError ResponsePayload × Client) → Prop
  | waiting : x.recvs.length < x.answer.length → Ended c command payload x none
  | timedOut {c' : Client} :
    .timeout ∈ x.recvs → Ended c command payload x (some (.error .timeout, c'))
  | own {c' : Client} : c'.unread = [] →
    Ended c command payload x (some (c.ownResult command payload x, c'))

variable {c : Client} {command : Command} {payload : RequestPayload} {x : Exchange}

theorem request_of_error {e : EncodeError}
    (h : encodeRequestFrame ⟨c.nextRequestId, command, payload⟩ = .error e) :
    c.request command payload x = some (.error (.encode e), c.nextId.2) := by
  simp only [request, nextId, h]

theorem request_of_closed {bytes : Bytes}
    (h : encodeRequestFrame ⟨c.nextRequestId, command, payload⟩ = .ok bytes)
    (hclosed : c.closed = true) : c.request command payload x = some (.error .os, c.nextId.2) := by
  simp only [request, nextId, h, hclosed, Bool.true_or, if_true]

theorem request_of_sent {bytes : Bytes}
    (h : encodeRequestFrame ⟨c.nextRequestId, command, payload⟩ = .ok bytes)
    (hopen : c.closed = false) (hsent : x.sendFails = false) :
    c.request command payload x =
      (receive c.nextRequestId command c.maxPayloadLen ⟨c.unread ++ x.answer, x.recvs⟩).map
        fun r => (r.1, { c.nextId.2 with unread := r.2.unread }) := by
  simp only [request, nextId, h, hopen, hsent, Bool.or_self]
  cases receive c.nextRequestId command c.maxPayloadLen ⟨c.unread ++ x.answer, x.recvs⟩ <;> rfl

theorem request_ended (hunread : c.unread = []) (hopen : c.closed = false)
    (hx : c.Answered command x) (payload : RequestPayload) :
    Ended c command payload x (c.request command payload x) := by
  cases hencode : encodeRequestFrame ⟨c.nextRequestId, command, payload⟩ with
  | error e =>
    have hown : c.ownResult command payload x = .error (.encode e) := by rw [ownResult, hencode]
    rw [request_of_error hencode, ← hown]
    exact .own hunread
  | ok bytes =>
    have hown : c.ownResult command payload x = answerOf c.maxPayloadLen x.answer := by
      rw [ownResult, hencode]
    have hreceive := reading_receive hx.alive hx.answers c.maxPayloadLen
    rw [request_of_sent hencode hopen hx.sent, hunread, List.nil_append]
    rw [List.append_nil, ← hown] at hreceive
    generalize receive _ _ _ _ = r at hreceive
    cases hreceive with
    | waiting hlt => exact .waiting hlt
    | timedOut hmem => exact .timedOut hmem
    | read => exact .own rfl

/-- A request that does not time out leaves nothing unread. -/
theorem unread_of_request (hunread : c.unread = []) (hx : c.Answered command x)
    (htimeout : .timeout ∉ x.recvs) {result : Except RequestError ResponsePayload} {c' : Client}
    (h : c.request command payload x = some (result, c')) : c'.unread = [] := by
  cases hopen : c.closed with
  | false =>
    have hended := request_ended hunread hopen hx payload
    rw [h] at hended
    cases hended with
    | timedOut hmem => exact absurd hmem htimeout
    | own hunread' => exact hunread'
  | true =>
    cases hencode : encodeRequestFrame ⟨c.nextRequestId, command, payload⟩ with
    | error e =>
      rw [request_of_error hencode] at h
      cases h
      exact hunread
    | ok bytes =>
      rw [request_of_closed hencode hopen] at h
      cases h
      exact hunread

end Client

namespace ClientPool

/-- Client `i` has read everything. -/
def Aligned (i : Nat) (p : ClientPool) : Prop := ∀ c, p.clients[i]? = some c → c.unread = []

theorem clients_of_acquire {p p' : ClientPool} {i : Nat} (h : p.acquire = .ok (i, p')) :
    p'.clients = p.clients := by
  rw [acquire] at h
  split at h
  next => cases h
  next =>
    split at h
    next => cases h
    next => cases h; rfl

theorem clients_of_request {p p' : ClientPool} {i : Nat} {command : Command}
    {payload : RequestPayload} {x : Exchange} {result : Except RequestError ResponsePayload}
    (h : p.request i command payload x = some (result, p')) :
    ∃ c c', p.clients[i]? = some c ∧ c.request command payload x = some (result, c') ∧
      p'.clients = p.clients.set i c' := by
  obtain ⟨c, hc, h⟩ := Option.bind_eq_some_iff.mp h
  obtain ⟨⟨result', c'⟩, hrequest, h⟩ := Option.bind_eq_some_iff.mp h
  cases h
  exact ⟨c, c', hc, hrequest, rfl⟩

/-- Client `i` is what it was, as far as reading goes. -/
def SameUnread (i : Nat) (p p' : ClientPool) : Prop :=
  ∀ c', p'.clients[i]? = some c' → ∃ c, p.clients[i]? = some c ∧ c'.unread = c.unread

theorem SameUnread.of_clients_eq {p p' : ClientPool} (h : p'.clients = p.clients) (i : Nat) :
    SameUnread i p p' := fun c hc => ⟨c, h ▸ hc, rfl⟩

theorem sameUnread_close (i : Nat) (p : ClientPool) : SameUnread i p p.close := by
  rw [close]
  split
  next => exact .of_clients_eq rfl i
  next =>
    intro c' hc'
    rw [List.getElem?_map] at hc'
    obtain ⟨c, hc, rfl⟩ := Option.map_eq_some_iff.mp hc'
    exact ⟨c, hc, rfl⟩

theorem sameUnread_closeClient (i j : Nat) (p : ClientPool) :
    SameUnread i p { p with clients := p.clients.modify j Client.close } := by
  intro c' hc'
  rw [List.getElem?_modify] at hc'
  obtain ⟨c, hc, rfl⟩ := Option.map_eq_some_iff.mp hc'
  refine ⟨c, hc, ?_⟩
  split <;> rfl

theorem Aligned.of_sameUnread {i : Nat} {p p' : ClientPool} (h : p.Aligned i)
    (hsame : SameUnread i p p') : p'.Aligned i := by
  intro c' hc'
  obtain ⟨c, hc, hunread⟩ := hsame c' hc'
  rw [hunread, h c hc]

theorem Aligned.request {i j : Nat} {p p' : ClientPool} {command : Command}
    {payload : RequestPayload} {x : Exchange} {result : Except RequestError ResponsePayload}
    (h : p.Aligned i) (ha : p.Answered (.request j command payload x))
    (htimeout : j = i → .timeout ∉ x.recvs)
    (hrequest : p.request j command payload x = some (result, p')) : p'.Aligned i := by
  obtain ⟨c₀, c₁, hc₀, hc₁, hclients⟩ := clients_of_request hrequest
  intro c hc
  rw [hclients, List.getElem?_set] at hc
  split at hc
  next hji =>
    subst hji
    split at hc
    next =>
      cases hc
      exact Client.unread_of_request (h c₀ hc₀) (ha c₀ hc₀) (htimeout rfl) hc₁
    next => cases hc
  next => exact h c hc

/-- Only a timeout on a client makes it lose its place. -/
theorem Aligned.step {i : Nat} {p p' : ClientPool} {a : Action} (h : p.Aligned i)
    (ha : p.Answered a) (htimeout : ¬a.TimesOut i) (hstep : p.step a = some p') :
    p'.Aligned i := by
  cases a with
  | acquire =>
    rw [ClientPool.step] at hstep
    split at hstep
    next j p₁ hacquire =>
      cases hstep
      exact h.of_sameUnread (.of_clients_eq (clients_of_acquire hacquire) i)
    next =>
      cases hstep
      exact h
  | release j =>
    cases hstep
    exact h.of_sameUnread (.of_clients_eq rfl i)
  | request j command payload x =>
    obtain ⟨⟨result, p₁⟩, hrequest, rfl⟩ := Option.map_eq_some_iff.mp hstep
    exact h.request ha (fun hji hmem => htimeout ⟨hji, hmem⟩) hrequest
  | closeClient j =>
    cases hstep
    exact h.of_sameUnread (sameUnread_closeClient i j p)
  | close =>
    cases hstep
    exact h.of_sameUnread (sameUnread_close i p)

theorem Aligned.run {i : Nat} {p₀ p : ClientPool} {actions : List Action} (h : p₀.Aligned i)
    (hrun : Run p₀ actions p) (htimeouts : ∀ a ∈ actions, ¬a.TimesOut i) : p.Aligned i := by
  induction hrun with
  | nil => exact h
  | cons _ ha hstep ih =>
    rw [List.forall_mem_cons] at htimeouts
    exact (ih htimeouts.2).step ha htimeouts.1 hstep

/-- **A client stays aligned** as long as none of its requests times out: in every run of a pool of
new clients, or of new clients that are used without one, a request on an open client whose earlier
requests have not timed out times out itself or returns what its own response says. It does return
if no `recv` times out and there are as many outcomes as bytes. -/
theorem requests_stay_aligned {p₀ p : ClientPool}
    (hnew : ∀ c ∈ p₀.clients, ∃ maxPayloadLen, c = .new maxPayloadLen) {actions : List Action}
    (hrun : Run p₀ actions p) {i : Nat} {c : Client} (hc : p.clients[i]? = some c)
    (hopen : c.closed = false) (htimeouts : ∀ a ∈ actions, ¬a.TimesOut i) {command : Command}
    {x : Exchange} (hx : c.Answered command x) (payload : RequestPayload) :
    (∀ result p', p.request i command payload x = some (result, p') →
      result = .error .timeout ∨ result = c.ownResult command payload x) ∧
    (.timeout ∉ x.recvs → x.answer.length ≤ x.recvs.length →
      ∃ p', p.request i command payload x = some (c.ownResult command payload x, p')) := by
  have hstart : p₀.Aligned i := fun c₀ hc₀ => by
    obtain ⟨maxPayloadLen, rfl⟩ := hnew c₀ (List.mem_of_getElem? hc₀)
    rfl
  have hended := Client.request_ended (hstart.run hrun htimeouts c hc) hopen hx payload
  constructor
  · intro result p' h
    obtain ⟨c₀, c', hc₀, hrequest, -⟩ := clients_of_request h
    cases hc.symm.trans hc₀
    rw [hrequest] at hended
    cases hended with
    | timedOut => exact .inl rfl
    | own => exact .inr rfl
  · intro htimeout hlen
    rw [request, hc]
    generalize hr : c.request command payload x = r at hended
    cases hended with
    | waiting hlt => exact absurd hlen (Nat.not_le.mpr hlt)
    | timedOut hmem => exact absurd hmem htimeout
    | own => exact ⟨_, by rw [Option.bind_eq_bind, Option.bind_some, hr]; rfl⟩

/-! ## Two requests on a pool of one client -/

/-- The server sends this response. -/
def answering (response : Protocol.ResponseFrame) (recvs : List Recv) : Exchange where
  sendFails := false
  answer := (Protocol.encodeResponseFrame response).getD []
  recvs := recvs

theorem answered_answering {c : Client} {command : Command} {response : Protocol.ResponseFrame}
    {recvs : List Recv} (hid : Protocol.intOf response.requestId = c.nextRequestId)
    (hcommand : response.command.toPython = command)
    (hlt : (response.payload.status :: response.payload.body).length < 2 ^ 32)
    (halive : .chunk 0 ∉ recvs) :
    c.Answered command (answering response recvs) := by
  have hb : NativeClient.Answers (NativeClient.header response)
      (answering response recvs).answer := by
    simp only [answering]
    exact NativeClient.answers_encode hlt
  exact ⟨rfl, ⟨NativeClient.header response, hid, hcommand, hb⟩, halive⟩

/-- A pool of one client, which is `c`. -/
def onePool (c : Client) (available : List Nat) : ClientPool where
  clients := [c]
  available := available
  closed := false

/-- The client after its first request. -/
def second (unread : Bytes) : Client :=
  { Client.new (2 ^ 32 - 1) with unread, nextRequestId := 2 }

def firstGet (recvs : List Recv) : Action :=
  .request 0 .get (.get "default" [1]) (answering ⟨1, .get, .hit [7]⟩ recvs)

/-- The client goes back to the pool after the first request and is handed out again. -/
theorem run_firstGet {recvs : List Recv} (halive : .chunk 0 ∉ recvs) {unread : Bytes}
    (h : (onePool (.new (2 ^ 32 - 1)) []).step (firstGet recvs) =
      some (onePool (second unread) [])) :
    Run (onePool (.new (2 ^ 32 - 1)) [0]) [.acquire, .release 0, firstGet recvs, .acquire]
      (onePool (second unread) []) := by
  refine .cons (.cons (.cons (.cons .nil trivial rfl) (fun c hc => ?_) h) trivial rfl) trivial rfl
  cases hc
  exact answered_answering rfl rfl (by decide) halive

theorem requests_stay_aligned_secondGet :
    ∃ p', (onePool (second []) []).request 0 .get (.get "default" [2])
      (answering ⟨2, .get, .miss⟩ (.replicate 30 (.chunk 24))) = some (.ok .miss, p') := by
  have hrun : Run (onePool (.new (2 ^ 32 - 1)) [0])
      [.acquire, .release 0, firstGet (.replicate 30 (.chunk 5)), .acquire]
      (onePool (second []) []) := run_firstGet (by decide +kernel) (by decide +kernel)
  have hown : (second []).ownResult .get (.get "default" [2])
      (answering ⟨2, .get, .miss⟩ (.replicate 30 (.chunk 24))) = .ok .miss := by decide +kernel
  have hnew : ∀ c ∈ (onePool (.new (2 ^ 32 - 1)) [0]).clients, ∃ maxPayloadLen,
      c = .new maxPayloadLen := List.forall_mem_singleton.mpr ⟨_, rfl⟩
  have hx : (second []).Answered .get
      (answering ⟨2, .get, .miss⟩ (.replicate 30 (.chunk 24))) :=
    answered_answering rfl rfl (by decide) (by decide +kernel)
  have haligned := requests_stay_aligned hnew hrun (i := 0) rfl rfl
    (by simp [Action.TimesOut, firstGet, answering]) hx (.get "default" [2])
  rw [← hown]
  exact haligned.2 (by decide +kernel) (by decide +kernel)

/-- The first request times out before anything arrives. The second reads the response to it. -/
theorem not_requests_stay_aligned_timedOut :
    ClientPool.new [.new (2 ^ 32 - 1)] = .ok (onePool (.new (2 ^ 32 - 1)) [0]) ∧
      ∃ unread,
        Run (onePool (.new (2 ^ 32 - 1)) [0])
          [.acquire, .release 0, firstGet [.timeout], .acquire] (onePool (second unread) []) ∧
        (second unread).closed = false ∧
        (second unread).Answered .get
          (answering ⟨2, .get, .miss⟩ (.replicate 30 (.chunk 24))) ∧
        ∃ p', (onePool (second unread) []).request 0 .get (.get "default" [2])
          (answering ⟨2, .get, .miss⟩ (.replicate 30 (.chunk 24))) =
            some (.error (.unexpectedResponse
              "response request_id or command did not match request"), p') := by
  refine ⟨rfl, (Protocol.encodeResponseFrame ⟨1, .get, .hit [7]⟩).getD [],
    run_firstGet (by decide) (by decide +kernel), rfl,
    answered_answering rfl rfl (by decide) (by decide +kernel),
    onePool { second ((Protocol.encodeResponseFrame ⟨2, .get, .miss⟩).getD []) with
      nextRequestId := 3 } [], by decide +kernel⟩

end ClientPool

end Python
end Cachebox
