import Cachebox.Python.Client
import Cachebox.Theory.Run

/-!
# The asyncio client (`clients/python/python/cachebox/async_client.py`)

Any number of coroutines call `AsyncClient._request` on one connection. A coroutine can be cancelled
wherever it awaits something: the lock, the writer, the reader, or the end of the connection that it
closes itself. What a coroutine does between two awaits is one step, and a list of actions is an
interleaving of the coroutines, the transport, the server and the network.

Of asyncio the model has what `_request` sees of it. The transport sends what it is given when it
can. `writer.close()` ends the reading at once and the connection when all has been sent: until then
`write` still adds to what is sent and `drain` returns. After that `write` is without effect, or it
raises an error that `_request` does not catch, and `drain` raises an `OSError` when the stream has
been told. A cancelled `readexactly` takes nothing out of the buffer.

A cancelled or failed request closes the connection, so that its response is not read by the next
one, and a caller is given the response to its own request or none. Requests may still be sent after
that, by coroutines that already waited for the lock when the client was closed; they are not
answered to anybody.
-/

namespace Cachebox
namespace Python

/-- What ends a call of `_request`. -/
inductive AsyncError where
  | cancelled
  /-- Raised by a `write` on a transport that has ended. -/
  | transport
  | request (error : RequestError)
  deriving DecidableEq, Repr

/-- The await at which a coroutine is. From `draining` on it holds the lock. -/
inductive Await where
  | acquiring
  | draining (requestId : Int)
  | readingHeader (requestId : Int)
  | readingPayload (requestId : Int) (header : Bytes)
  /-- In an exception handler, at `await self.close()`, with what is raised then. -/
  | closing (error : AsyncError)
  deriving DecidableEq

/-- A call of `_request`. -/
structure Coroutine where
  command : Command
  payload : RequestPayload
  await : Await
  deriving DecidableEq

/-- The request of a call. -/
def Coroutine.frame (coroutine : Coroutine) (requestId : Int) : RequestFrame :=
  ⟨requestId, coroutine.command, coroutine.payload⟩

/-- A client with its connection and the server. -/
structure AsyncClient where
  nextRequestId : Int
  maxPayloadLen : Nat
  closed : Bool
  /-- The coroutine that holds the lock. -/
  lock : Option Nat
  coroutines : Nat → Option Coroutine
  /-- What the stream reader has received. -/
  buffer : Bytes
  /-- The stream reader expects nothing more. -/
  eof : Bool
  /-- What has been written to the transport and not been sent. -/
  outgoing : List RequestFrame
  /-- The transport reads no more, and ends when all is sent. -/
  closing : Bool
  /-- The transport sends no more. -/
  lost : Bool
  /-- `connection_lost` has been called, by which the stream gets to know. -/
  connectionLost : Bool
  /-- The requests that have been sent to the server and not answered. -/
  requests : List RequestFrame
  /-- What the server has sent and the reader has not received. -/
  transit : Bytes
  /-- All answers of the server, with the requests that they answer. -/
  answers : List (RequestFrame × Bytes)

namespace AsyncClient

/-- The result of a call that ends, with its coroutine. -/
abbrev Finished := Option (Nat × Except AsyncError ResponsePayload)

def new (maxPayloadLen : Nat) : AsyncClient where
  nextRequestId := 1
  maxPayloadLen := maxPayloadLen
  closed := false
  lock := none
  coroutines _ := none
  buffer := []
  eof := false
  outgoing := []
  closing := false
  lost := false
  connectionLost := false
  requests := []
  transit := []
  answers := []

def nextId (c : AsyncClient) : Int × AsyncClient :=
  let next := c.nextRequestId + 1
  (c.nextRequestId, { c with nextRequestId := if next > 2 ^ 64 - 1 then 1 else next })

/-! ## The transport -/

/-- `writer.write`. -/
def write (c : AsyncClient) (request : RequestFrame) : AsyncClient :=
  if c.lost then c else { c with outgoing := c.outgoing ++ [request] }

/-- `writer.close`. -/
def closeTransport (c : AsyncClient) : AsyncClient :=
  if c.closing then c else { c with closing := true, lost := c.lost || c.outgoing.isEmpty }

/-- The stream gets to know that the connection is lost. -/
def callConnectionLost (c : AsyncClient) : AsyncClient :=
  { c with connectionLost := true, eof := true }

/-- The rest of the first request is sent. -/
def flush (c : AsyncClient) : AsyncClient :=
  match c.outgoing with
  | [] => c
  | request :: outgoing =>
    if c.lost then c
    else
      let c := { c with outgoing, requests := c.requests ++ [request] }
      if c.closing && outgoing.isEmpty then callConnectionLost { c with lost := true } else c

/-- The connection is lost, with all that has not been sent. -/
def forceClose (c : AsyncClient) : AsyncClient :=
  { c with outgoing := [], closing := true, lost := true }

def receive (c : AsyncClient) (n : Nat) : AsyncClient :=
  if c.eof || c.closing then c
  else { c with buffer := c.buffer ++ c.transit.take n, transit := c.transit.drop n }

/-! ## Calls -/

/-- `close` up to its await. -/
def close (c : AsyncClient) : AsyncClient :=
  if c.closed then c else closeTransport { c with closed := true }

def setCoroutine (c : AsyncClient) (t : Nat) (coroutine : Option Coroutine) : AsyncClient :=
  { c with coroutines := Function.update c.coroutines t coroutine }

/-- The end of a call that holds the lock. -/
def finish (c : AsyncClient) (t : Nat) (result : Except AsyncError ResponsePayload) :
    Finished × AsyncClient :=
  (some (t, result), { c.setCoroutine t none with lock := none })

/-- The exception handlers of `_request`. If the client is closed already, `close` returns without
an await. -/
def abandon (c : AsyncClient) (t : Nat) (coroutine : Coroutine) (error : AsyncError) :
    Finished × AsyncClient :=
  if c.closed then c.finish t (.error error)
  else (none, c.close.setCoroutine t (some { coroutine with await := .closing error }))

def closedDuringRequest : AsyncError :=
  .request (.connectionClosed "connection closed during request")

/-- `readexactly`, which waits (`none`) for as many bytes unless there are no more to come. -/
def readexactly (c : AsyncClient) (n : Nat) : Option (Option Bytes × AsyncClient) :=
  if n ≤ c.buffer.length then
    some (some (c.buffer.take n), { c with buffer := c.buffer.drop n })
  else if c.eof then some (none, { c with buffer := [] })
  else none

/-- What `_request` makes of the bytes of its response. -/
def respond (maxPayloadLen : Nat) (requestId : Int) (command : Command) (bytes : Bytes) :
    Except AsyncError ResponsePayload :=
  match decodeResponseFrame bytes maxPayloadLen with
  | .error e => .error (.request (.decode e))
  | .ok response =>
    if response.requestId ≠ requestId ∨ response.command ≠ command then
      .error (.request (.unexpectedResponse "response request_id or command did not match request"))
    else
      match response.payload with
      | .error code message => .error (.request (.server code message))
      | payload => .ok payload

/-! ## Steps -/

/-- How an await ends: it returns, it raises an `OSError`, or the coroutine is cancelled. The lock
does not fail, but the `write` behind it may. -/
inductive Wakeup where
  | ready
  | failed
  | cancelled

inductive Action where
  | request (t : Nat) (command : Command) (payload : RequestPayload)
  | resume (t : Nat) (wakeup : Wakeup)
  /-- Somebody calls `close`. -/
  | close
  | flush
  /-- The server answers the `i`th of the requests that have been sent to it. -/
  | answer (i : Nat) (bytes : Bytes)
  | receive (n : Nat)
  /-- The server sends no more. -/
  | eof
  | lose
  | connectionLost

/-- The start of a call, up to the lock. -/
def request (c : AsyncClient) (t : Nat) (command : Command) (payload : RequestPayload) :
    Finished × AsyncClient :=
  if c.closed then
    (some (t, .error (.request (.connectionClosed "connection is closed"))), c)
  else
    (none, c.setCoroutine t (some ⟨command, payload, .acquiring⟩))

/-- With the lock, a coroutine writes its request. -/
def acquire (c : AsyncClient) (t : Nat) (coroutine : Coroutine) (writeRaises : Bool) :
    Finished × AsyncClient :=
  let (requestId, c) := c.nextId
  match encodeRequestFrame (coroutine.frame requestId) with
  | .error e => c.finish t (.error (.request (.encode e)))
  | .ok _ =>
    if writeRaises then c.finish t (.error .transport)
    else
      let c := c.write (coroutine.frame requestId)
      (none, { c.setCoroutine t (some { coroutine with await := .draining requestId }) with
        lock := some t })

def drain (c : AsyncClient) (t : Nat) (coroutine : Coroutine) (requestId : Int) :
    Finished × AsyncClient :=
  if c.connectionLost then c.abandon t coroutine closedDuringRequest
  -- it gives way to the call of `connection_lost`
  else if c.lost then (none, c)
  else (none, c.setCoroutine t (some { coroutine with await := .readingHeader requestId }))

def readHeader (c : AsyncClient) (t : Nat) (coroutine : Coroutine) (requestId : Int) :
    Finished × AsyncClient :=
  match c.readexactly headerLen with
  | none => (none, c)
  | some (none, c) => c.abandon t coroutine closedDuringRequest
  | some (some header, c) =>
    (none, c.setCoroutine t (some { coroutine with await := .readingPayload requestId header }))

def readPayload (c : AsyncClient) (t : Nat) (coroutine : Coroutine) (requestId : Int)
    (header : Bytes) : Finished × AsyncClient :=
  match c.readexactly (BigEndian.ofBytes (header.extract 16 20)) with
  | none => (none, c)
  | some (none, c) => c.abandon t coroutine closedDuringRequest
  | some (some payload, c) =>
    c.finish t (respond c.maxPayloadLen requestId coroutine.command (header ++ payload))

def answer (c : AsyncClient) (i : Nat) (bytes : Bytes) : AsyncClient :=
  match c.requests[i]? with
  | none => c
  | some request =>
    { c with
      requests := c.requests.eraseIdx i
      transit := c.transit ++ bytes
      answers := c.answers ++ [(request, bytes)] }

/-- The step of a coroutine from the await at which it is. An await that is not over yet goes on. -/
def resume (c : AsyncClient) (t : Nat) (coroutine : Coroutine) : Wakeup → Finished × AsyncClient
  | .ready =>
    match coroutine.await with
    | .acquiring => if c.lock.isNone then c.acquire t coroutine false else (none, c)
    | .draining requestId => c.drain t coroutine requestId
    | .readingHeader requestId => c.readHeader t coroutine requestId
    | .readingPayload requestId header => c.readPayload t coroutine requestId header
    | .closing error => if c.connectionLost then c.finish t (.error error) else (none, c)
  | .failed =>
    match coroutine.await with
    | .acquiring =>
      if c.lock.isNone ∧ c.connectionLost then c.acquire t coroutine true else (none, c)
    | .draining _ | .readingHeader _ | .readingPayload .. =>
      c.abandon t coroutine closedDuringRequest
    -- `close` passes over it
    | .closing error => c.finish t (.error error)
  | .cancelled =>
    match coroutine.await with
    | .acquiring => (some (t, .error .cancelled), c.setCoroutine t none)
    | .draining _ | .readingHeader _ | .readingPayload .. => c.abandon t coroutine .cancelled
    | .closing _ => c.finish t (.error .cancelled)

def step (c : AsyncClient) : Action → Finished × AsyncClient
  | .request t command payload =>
    match c.coroutines t with
    | none => c.request t command payload
    | some _ => (none, c)
  | .resume t wakeup =>
    match c.coroutines t with
    | none => (none, c)
    | some coroutine => c.resume t coroutine wakeup
  | .close => (none, c.close)
  | .flush => (none, c.flush)
  | .answer i bytes => (none, c.answer i bytes)
  | .receive n => (none, c.receive n)
  | .eof => (none, { c with eof := true })
  | .lose => (none, c.forceClose)
  | .connectionLost => (none, if c.lost then c.callConnectionLost else c)

/-- The server answers a request with a response frame that has its id and its command. -/
def Conforms (c : AsyncClient) : Action → Prop
  | .answer i bytes => ∀ request, c.requests[i]? = some request →
    Answers request.requestId request.command bytes
  | _ => True

/-! ## One request at a time -/

/-- Nothing is on its way between the client and the server. -/
structure Quiet (c : AsyncClient) : Prop where
  outgoing : c.outgoing = []
  requests : c.requests = []
  buffer : c.buffer = []
  transit : c.transit = []

/-- Of the answer to `request`, `consumed` has been read and nothing else is on its way. -/
inductive Awaits (c : AsyncClient) (request : RequestFrame) (consumed : Bytes) : Prop
  | written : c.outgoing = [request] → c.requests = [] → c.buffer = [] → c.transit = [] →
    consumed = [] → Awaits c request consumed
  | sent : c.outgoing = [] → c.requests = [request] → c.buffer = [] → c.transit = [] →
    consumed = [] → Awaits c request consumed
  | answered (bytes : Bytes) (earlier : List (RequestFrame × Bytes)) : c.outgoing = [] →
    c.requests = [] → c.answers = earlier ++ [(request, bytes)] →
    Answers request.requestId request.command bytes →
    consumed ++ (c.buffer ++ c.transit) = bytes → Awaits c request consumed

/-- Nothing is received any more. -/
structure Vain (c : AsyncClient) : Prop where
  closing : c.closing = true
  quiet : c.closed = false → c.Quiet

/-- What the connection holds for the coroutine that has the lock. -/
def Serves (c : AsyncClient) (coroutine : Coroutine) : Prop :=
  match coroutine.await with
  | .acquiring => False
  | .draining requestId => c.Awaits (coroutine.frame requestId) [] ∨ c.Vain
  | .readingHeader requestId => c.Awaits (coroutine.frame requestId) [] ∨ c.Vain ∧ c.buffer = []
  | .readingPayload requestId header =>
    header.length = headerLen ∧ c.Awaits (coroutine.frame requestId) header
  | .closing error => c.closed = true ∧ (error = .cancelled ∨ error = closedDuringRequest)

/-- Who has the lock. The other coroutines wait for it. -/
inductive Locked (c : AsyncClient) : Prop
  | free : c.lock = none → (c.closed = false → c.Quiet) →
    (∀ t coroutine, c.coroutines t = some coroutine → coroutine.await = .acquiring) → Locked c
  | held (t : Nat) (coroutine : Coroutine) : c.lock = some t → c.coroutines t = some coroutine →
    c.Serves coroutine →
    (∀ t' coroutine', t' ≠ t → c.coroutines t' = some coroutine' →
      coroutine'.await = .acquiring) → Locked c

/-- The state of the transport. A transport that is closed before it has sent everything has no
answer to leave unread. -/
structure Wired (c : AsyncClient) : Prop where
  closing_of_closed : c.closed = true → c.closing = true
  closing_of_lost : c.lost = true → c.closing = true
  lost_of_sent : c.closing = true → c.outgoing = [] → c.lost = true
  unread : c.outgoing ≠ [] → c.buffer = []

structure Inv (c : AsyncClient) : Prop where
  wired : c.Wired
  locked : c.Locked

/-- Between the two states nothing is written, sent, answered or received. -/
structure SameTraffic (c c' : AsyncClient) : Prop where
  outgoing : c'.outgoing = c.outgoing
  requests : c'.requests = c.requests
  buffer : c'.buffer = c.buffer
  transit : c'.transit = c.transit
  answers : c'.answers = c.answers
  closing : c.closing = true → c'.closing = true
  closed : c.closed = true → c'.closed = true

section
variable {c c' : AsyncClient} {frame : RequestFrame} {consumed : Bytes} {t : Nat}
  {coroutine : Coroutine}

theorem SameTraffic.open_of_open (h : SameTraffic c c') (hopen : c'.closed = false) :
    c.closed = false := by
  rw [← Bool.not_eq_true] at hopen ⊢
  exact fun hclosed => hopen (h.closed hclosed)

theorem Quiet.congr (h : c.Quiet) (hsame : SameTraffic c c') : c'.Quiet where
  outgoing := hsame.outgoing.trans h.outgoing
  requests := hsame.requests.trans h.requests
  buffer := hsame.buffer.trans h.buffer
  transit := hsame.transit.trans h.transit

theorem Awaits.congr (h : c.Awaits frame consumed) (houtgoing : c'.outgoing = c.outgoing)
    (hrequests : c'.requests = c.requests)
    (hstream : c'.buffer ++ c'.transit = c.buffer ++ c.transit)
    (hanswers : c'.answers = c.answers) : c'.Awaits frame consumed := by
  cases h with
  | written hone hnone hbuffer htransit hconsumed =>
    rw [hbuffer, htransit, List.append_nil, List.append_eq_nil_iff] at hstream
    exact .written (houtgoing.trans hone) (hrequests.trans hnone) hstream.1 hstream.2 hconsumed
  | sent hnone hone hbuffer htransit hconsumed =>
    rw [hbuffer, htransit, List.append_nil, List.append_eq_nil_iff] at hstream
    exact .sent (houtgoing.trans hnone) (hrequests.trans hone) hstream.1 hstream.2 hconsumed
  | answered bytes earlier hsent hnone hearlier hbytes heq =>
    exact .answered bytes earlier (houtgoing.trans hsent) (hrequests.trans hnone)
      (hanswers.trans hearlier) hbytes (hstream ▸ heq)

/-- What carries over what is awaited from one state to another. -/
structure Carries (c c' : AsyncClient) : Prop where
  awaits : ∀ {frame consumed}, c.Awaits frame consumed → c'.Awaits frame consumed
  quiet : (c.closed = false → c.Quiet) → c'.closed = false → c'.Quiet
  closing : c.closing = true → c'.closing = true
  closed : c.closed = true → c'.closed = true
  unread : c.closing = true → c.buffer = [] → c'.buffer = []

theorem SameTraffic.carries (h : SameTraffic c c') : Carries c c' where
  awaits hawaits :=
    hawaits.congr h.outgoing h.requests (by rw [h.buffer, h.transit]) h.answers
  quiet hquiet hopen := (hquiet (h.open_of_open hopen)).congr h
  closing := h.closing
  closed := h.closed
  unread _ hbuffer := h.buffer.trans hbuffer

theorem Vain.carry (h : c.Vain) (hc : Carries c c') : c'.Vain :=
  ⟨hc.closing h.closing, hc.quiet h.quiet⟩

theorem Serves.carry (h : c.Serves coroutine) (hc : Carries c c') : c'.Serves coroutine := by
  obtain ⟨command, payload, await⟩ := coroutine
  cases await with
  | acquiring => exact h
  | draining requestId => exact h.imp hc.awaits fun hvain => hvain.carry hc
  | readingHeader requestId =>
    exact h.imp hc.awaits fun hvain => ⟨hvain.1.carry hc, hc.unread hvain.1.closing hvain.2⟩
  | readingPayload requestId header => exact ⟨h.1, hc.awaits h.2⟩
  | closing error => exact ⟨hc.closed h.1, h.2⟩

/-- The coroutines stay where they are. -/
theorem Locked.carry (h : c.Locked) (hc : Carries c c') (hlock : c'.lock = c.lock)
    (hcoroutines : c'.coroutines = c.coroutines) : c'.Locked := by
  cases h with
  | free hfree hquiet hothers =>
    exact .free (hlock.trans hfree) (hc.quiet hquiet) (hcoroutines ▸ hothers)
  | held t coroutine hheld hco hserves hothers =>
    exact .held t coroutine (hlock.trans hheld) (hcoroutines ▸ hco) (hserves.carry hc)
      (hcoroutines ▸ hothers)

/-- A coroutine past the lock has it. -/
theorem Locked.lock_eq (h : c.Locked) (hco : c.coroutines t = some coroutine)
    (hawait : coroutine.await ≠ .acquiring) :
    c.lock = some t ∧ c.Serves coroutine ∧ ∀ t' coroutine', t' ≠ t →
      c.coroutines t' = some coroutine' → coroutine'.await = .acquiring := by
  cases h with
  | free _ _ hothers => exact absurd (hothers t coroutine hco) hawait
  | held t₀ coroutine₀ hlock hco₀ hserves hothers =>
    have ht : t = t₀ := by_contra fun hne => hawait (hothers t coroutine hne hco)
    subst ht
    cases hco.symm.trans hco₀
    exact ⟨hlock, hserves, hothers⟩

theorem others_update {coroutines : Nat → Option Coroutine} {new : Option Coroutine}
    (h : ∀ t' coroutine', t' ≠ t → coroutines t' = some coroutine' →
      coroutine'.await = .acquiring) (t' : Nat) (coroutine' : Coroutine) (hne : t' ≠ t)
    (hco : Function.update coroutines t new t' = some coroutine') :
    coroutine'.await = .acquiring := by
  rw [Function.update_of_ne hne] at hco
  exact h t' coroutine' hne hco

theorem all_update {coroutines : Nat → Option Coroutine} {new : Option Coroutine}
    (h : ∀ t' coroutine', t' ≠ t → coroutines t' = some coroutine' →
      coroutine'.await = .acquiring)
    (hnew : ∀ coroutine', new = some coroutine' → coroutine'.await = .acquiring) (t' : Nat)
    (coroutine' : Coroutine) (hco : Function.update coroutines t new t' = some coroutine') :
    coroutine'.await = .acquiring := by
  by_cases ht : t' = t
  · subst ht
    rw [Function.update_self] at hco
    exact hnew coroutine' hco
  · exact others_update h t' coroutine' ht hco

/-! ## The parts of a step -/

/-- What `close` does to the connection. -/
theorem sameTraffic_close (c : AsyncClient) : SameTraffic c c.close := by
  unfold AsyncClient.close closeTransport
  split
  · exact ⟨rfl, rfl, rfl, rfl, rfl, id, id⟩
  · split
    · exact ⟨rfl, rfl, rfl, rfl, rfl, id, fun _ => rfl⟩
    · exact ⟨rfl, rfl, rfl, rfl, rfl, fun _ => rfl, fun _ => rfl⟩

theorem closed_close (c : AsyncClient) : c.close.closed = true := by
  unfold AsyncClient.close closeTransport
  split
  · assumption
  · split <;> rfl

theorem close_coroutines (c : AsyncClient) :
    c.close.coroutines = c.coroutines ∧ c.close.lock = c.lock := by
  unfold AsyncClient.close closeTransport
  split
  · exact ⟨rfl, rfl⟩
  · split <;> exact ⟨rfl, rfl⟩

theorem Wired.close (h : c.Wired) : c.close.Wired := by
  unfold AsyncClient.close closeTransport
  split
  · exact h
  · split
    · next hclosing =>
      exact ⟨fun _ => hclosing, h.closing_of_lost, h.lost_of_sent, h.unread⟩
    · exact ⟨fun _ => rfl, fun _ => rfl,
        fun _ hsent => Bool.or_eq_true_iff.mpr (.inr (List.isEmpty_iff.mpr hsent)), h.unread⟩

theorem Inv.close (h : c.Inv) : c.close.Inv :=
  ⟨h.wired.close,
    h.locked.carry c.sameTraffic_close.carries c.close_coroutines.2 c.close_coroutines.1⟩

/-- The holder of the lock ends its call. -/
theorem inv_finish (hwired : c.Wired) (hquiet : c.closed = false → c.Quiet)
    (hothers : ∀ t' coroutine', t' ≠ t → c.coroutines t' = some coroutine' →
      coroutine'.await = .acquiring) (result : Except AsyncError ResponsePayload) :
    (c.finish t result).2.Inv :=
  ⟨⟨hwired.1, hwired.2, hwired.3, hwired.4⟩,
    .free rfl (fun hopen => (hquiet hopen).congr ⟨rfl, rfl, rfl, rfl, rfl, id, id⟩)
      (all_update hothers (by simp))⟩

/-- The holder of the lock goes on. -/
theorem inv_setCoroutine (hwired : c.Wired) (hlock : c.lock = some t)
    (hothers : ∀ t' coroutine', t' ≠ t → c.coroutines t' = some coroutine' →
      coroutine'.await = .acquiring) (hserves : c.Serves coroutine) :
    (c.setCoroutine t (some coroutine)).Inv :=
  ⟨⟨hwired.1, hwired.2, hwired.3, hwired.4⟩, .held t coroutine hlock (Function.update_self ..)
    (hserves.carry (SameTraffic.carries ⟨rfl, rfl, rfl, rfl, rfl, id, id⟩))
    (others_update hothers)⟩

/-- Coroutines without the lock come and go. -/
theorem Inv.setWaiting (h : c.Inv)
    (hco : ∀ coroutine, c.coroutines t = some coroutine → coroutine.await = .acquiring)
    {new : Option Coroutine}
    (hnew : ∀ coroutine, new = some coroutine → coroutine.await = .acquiring) :
    (c.setCoroutine t new).Inv := by
  have hwired := h.wired
  have hsame : SameTraffic c (c.setCoroutine t new) := ⟨rfl, rfl, rfl, rfl, rfl, id, id⟩
  refine ⟨⟨hwired.1, hwired.2, hwired.3, hwired.4⟩, ?_⟩
  cases h.locked with
  | free hlock hquiet hothers =>
    exact .free hlock (fun hopen => (hquiet hopen).congr hsame)
      (all_update (fun t' coroutine' _ => hothers t' coroutine') hnew)
  | held t₀ coroutine₀ hlock hco₀ hserves hothers =>
    have hne : t₀ ≠ t := by
      rintro rfl
      rw [Serves, hco coroutine₀ hco₀] at hserves
      exact hserves
    refine .held t₀ coroutine₀ hlock ((Function.update_of_ne hne ..).trans hco₀)
      (hserves.carry hsame.carries) fun t' coroutine' ht' hco' => ?_
    by_cases ht : t' = t
    · subst ht
      change Function.update c.coroutines t' new t' = some coroutine' at hco'
      rw [Function.update_self] at hco'
      exact hnew coroutine' hco'
    · exact hothers t' coroutine' ht' ((Function.update_of_ne ht ..).symm.trans hco')

/-! ## What a call returns -/

/-- What a call may return. A caller that is given anything but the news that its call was
cancelled, that its request cannot be encoded or that the connection is closed or gone is given what
the server has answered to its own request, which is the last thing that the server has answered. -/
inductive Rightful (c : AsyncClient) (t : Nat) : Except AsyncError ResponsePayload → Prop
  | cancelled : Rightful c t (.error .cancelled)
  | transport : c.connectionLost = true → Rightful c t (.error .transport)
  | closed (message : String) : c.closed = true →
    Rightful c t (.error (.request (.connectionClosed message)))
  | encode (coroutine : Coroutine) (requestId : Int) (e : EncodeError) :
    c.coroutines t = some coroutine → encodeRequestFrame (coroutine.frame requestId) = .error e →
    Rightful c t (.error (.request (.encode e)))
  | own (coroutine : Coroutine) (requestId : Int) (header bytes : Bytes)
    (earlier : List (RequestFrame × Bytes)) : c.coroutines t = some coroutine →
    coroutine.await = .readingPayload requestId header →
    c.answers = earlier ++ [(coroutine.frame requestId, bytes)] →
    Rightful c t ((Client.answerOf c.maxPayloadLen bytes).mapError .request)

/-- A step keeps the invariant and returns nothing that is not due to the caller. -/
def Keeps (c : AsyncClient) (r : Finished × AsyncClient) : Prop :=
  r.2.Inv ∧ ∀ t result, r.1 = some (t, result) → c.Rightful t result

theorem keeps_none (h : c'.Inv) : c.Keeps (none, c') :=
  ⟨h, fun _ _ heq => by cases heq⟩

theorem keeps_some {result : Except AsyncError ResponsePayload} (h : c'.Inv)
    (hresult : c.Rightful t result) : c.Keeps (some (t, result), c') := by
  refine ⟨h, fun t' result' heq => ?_⟩
  cases heq
  exact hresult

theorem Inv.request (h : c.Inv) (hnone : c.coroutines t = none) (command : Command)
    (payload : RequestPayload) : c.Keeps (c.request t command payload) := by
  unfold AsyncClient.request
  split
  · next hclosed => exact keeps_some h (.closed _ hclosed)
  · exact keeps_none (h.setWaiting (by simp [hnone]) (by simp))

/-- A client without the lock whose transport still sends is quiet, or has been closed with
something left to send. -/
theorem Wired.quiet_or (h : c.Wired) (hquiet : c.closed = false → c.Quiet)
    (hlost : c.lost = false) :
    c.Quiet ∨ c.closing = true ∧ c.closed = true ∧ c.buffer = [] := by
  cases hclosed : c.closed with
  | false => exact .inl (hquiet hclosed)
  | true =>
    have hclosing := h.closing_of_closed hclosed
    refine .inr ⟨hclosing, rfl, h.unread fun hsent => ?_⟩
    exact absurd (h.lost_of_sent hclosing hsent) (by rw [hlost]; decide)

/-- The coroutine that has taken the lock writes its request. -/
theorem Wired.write (h : c.Wired) (hquiet : c.closed = false → c.Quiet) (request : RequestFrame) :
    (c.write request).Wired ∧ ((c.write request).Awaits request [] ∨ (c.write request).Vain) := by
  unfold AsyncClient.write
  split
  · next hlost => exact ⟨h, .inr ⟨h.closing_of_lost hlost, hquiet⟩⟩
  · next hlost =>
    have hunread : c.buffer = [] ∧ (c.Quiet ∨ c.closing = true ∧ c.closed = true) := by
      rcases h.quiet_or hquiet (Bool.eq_false_iff.mpr hlost) with hq | ⟨hclosing, hclosed, hbuffer⟩
      · exact ⟨hq.buffer, .inl hq⟩
      · exact ⟨hbuffer, .inr ⟨hclosing, hclosed⟩⟩
    refine ⟨⟨h.closing_of_closed, h.closing_of_lost, fun _ hsent => ?_, fun _ => hunread.1⟩, ?_⟩
    · exact absurd hsent (by simp)
    · rcases hunread.2 with hq | ⟨hclosing, hclosed⟩
      · refine .inl (.written ?_ hq.requests hq.buffer hq.transit rfl)
        show c.outgoing ++ [request] = [request]
        rw [hq.outgoing]
        rfl
      · refine .inr ⟨hclosing, fun hopen => ?_⟩
        cases hclosed.symm.trans hopen

theorem write_coroutines (c : AsyncClient) (request : RequestFrame) :
    (c.write request).coroutines = c.coroutines := by
  unfold AsyncClient.write
  split <;> rfl

theorem Inv.acquire (h : c.Inv) (hco : c.coroutines t = some coroutine) (hfree : c.lock = none)
    {writeRaises : Bool} (hlost : writeRaises = true → c.connectionLost = true) :
    c.Keeps (c.acquire t coroutine writeRaises) := by
  cases h.locked with
  | held t₀ coroutine₀ hlock => cases hfree.symm.trans hlock
  | free _ hquiet hothers =>
    have hwired : c.nextId.2.Wired := ⟨h.wired.1, h.wired.2, h.wired.3, h.wired.4⟩
    have hquiet' : c.nextId.2.closed = false → c.nextId.2.Quiet := fun hopen =>
      (hquiet hopen).congr ⟨rfl, rfl, rfl, rfl, rfl, id, id⟩
    have hothers' : ∀ t' coroutine', t' ≠ t → c.nextId.2.coroutines t' = some coroutine' →
        coroutine'.await = .acquiring := fun t' coroutine' _ => hothers t' coroutine'
    unfold AsyncClient.acquire
    dsimp only
    split
    · next e hencode =>
      exact keeps_some (inv_finish hwired hquiet' hothers' (.error (.request (.encode e))))
        (.encode coroutine _ e hco hencode)
    split
    · next hraises =>
      exact keeps_some (inv_finish hwired hquiet' hothers' (.error .transport))
        (.transport (hlost hraises))
    · obtain ⟨hwritten, hserves⟩ := hwired.write hquiet' (coroutine.frame c.nextId.1)
      have hsame : SameTraffic (c.nextId.2.write (coroutine.frame c.nextId.1))
          { (c.nextId.2.write (coroutine.frame c.nextId.1)).setCoroutine t
            (some { coroutine with await := .draining c.nextId.1 }) with lock := some t } :=
        ⟨rfl, rfl, rfl, rfl, rfl, id, id⟩
      refine keeps_none ⟨⟨hwritten.1, hwritten.2, hwritten.3, hwritten.4⟩,
        .held t _ rfl (Function.update_self ..) ?_ (others_update ?_)⟩
      · exact hserves.imp hsame.carries.awaits fun hvain => hvain.carry hsame.carries
      · rw [write_coroutines]
        exact hothers'

/-- The holder of the lock gives up its request. -/
theorem keeps_abandon {raised : AsyncError} {c₀ : AsyncClient} (hwired : c.Wired)
    (hlock : c.lock = some t)
    (hothers : ∀ t' coroutine', t' ≠ t → c.coroutines t' = some coroutine' →
      coroutine'.await = .acquiring) (hclosed : c.closed = true → c₀.closed = true)
    (hraised : raised = .cancelled ∨ raised = closedDuringRequest) :
    c₀.Keeps (c.abandon t coroutine raised) := by
  unfold AsyncClient.abandon
  split
  · next hc =>
    refine keeps_some (inv_finish hwired (fun hopen => ?_) hothers (.error raised)) ?_
    · cases hc.symm.trans hopen
    · obtain rfl | rfl := hraised
      · exact .cancelled
      · exact .closed _ (hclosed hc)
  · obtain ⟨hcoroutines, hlock'⟩ := c.close_coroutines
    exact keeps_none (inv_setCoroutine hwired.close (hlock'.trans hlock) (hcoroutines ▸ hothers)
      ⟨c.closed_close, hraised⟩)

theorem Inv.abandon (h : c.Inv) (hco : c.coroutines t = some coroutine)
    (hawait : coroutine.await ≠ .acquiring) {raised : AsyncError}
    (hraised : raised = .cancelled ∨ raised = closedDuringRequest) :
    c.Keeps (c.abandon t coroutine raised) := by
  obtain ⟨hlock, -, hothers⟩ := h.locked.lock_eq hco hawait
  exact keeps_abandon h.wired hlock hothers id hraised

theorem Inv.drain (h : c.Inv) (hco : c.coroutines t = some coroutine) {requestId : Int}
    (hawait : coroutine.await = .draining requestId) :
    c.Keeps (c.drain t coroutine requestId) := by
  obtain ⟨hlock, hserves, hothers⟩ := h.locked.lock_eq hco (by simp [hawait])
  unfold AsyncClient.drain
  split
  · exact h.abandon hco (by simp [hawait]) (.inr rfl)
  split
  · exact keeps_none h
  · next hlost =>
    rw [Serves, hawait] at hserves
    refine keeps_none (inv_setCoroutine h.wired hlock hothers (hserves.imp_right fun hvain => ?_))
    refine ⟨hvain, h.wired.unread fun hsent => hlost ?_⟩
    exact h.wired.lost_of_sent hvain.closing hsent

/-- Reading takes bytes off the front of the buffer. -/
inductive ReadExactly (c : AsyncClient) (n : Nat) : Option (Option Bytes × AsyncClient) → Prop
  | waiting : ReadExactly c n none
  | incomplete : ReadExactly c n (some (none, { c with buffer := [] }))
  | read (bytes rest : Bytes) : bytes.length = n → c.buffer = bytes ++ rest →
    ReadExactly c n (some (some bytes, { c with buffer := rest }))

theorem readExactly_readexactly (c : AsyncClient) (n : Nat) :
    ReadExactly c n (c.readexactly n) := by
  unfold readexactly
  split
  · next hle =>
    exact .read _ _ (List.length_take_of_le hle) (List.take_append_drop n c.buffer).symm
  · split
    · exact .incomplete
    · exact .waiting

theorem Wired.consume (h : c.Wired) {bytes rest : Bytes} (hbuffer : c.buffer = bytes ++ rest) :
    ({ c with buffer := rest } : AsyncClient).Wired := by
  refine ⟨h.1, h.2, h.3, fun hne => ?_⟩
  have hunread := h.unread hne
  rw [hbuffer, List.append_eq_nil_iff] at hunread
  exact hunread.2

/-- The holder of the lock finds that there is nothing more to read. -/
theorem Inv.incomplete (h : c.Inv) (hco : c.coroutines t = some coroutine)
    (hawait : coroutine.await ≠ .acquiring) :
    c.Keeps (AsyncClient.abandon { c with buffer := [] } t coroutine closedDuringRequest) := by
  obtain ⟨hlock, -, hothers⟩ := h.locked.lock_eq hco hawait
  exact keeps_abandon (h.wired.consume (List.append_nil _).symm) hlock hothers id (.inr rfl)

/-- Bytes that are read belong to the answer. -/
theorem Awaits.consume (h : c.Awaits frame consumed) {bytes rest : Bytes} (hne : bytes ≠ [])
    (hbuffer : c.buffer = bytes ++ rest) :
    ({ c with buffer := rest } : AsyncClient).Awaits frame (consumed ++ bytes) := by
  cases h with
  | written _ _ hempty | sent _ _ hempty =>
    rw [hempty] at hbuffer
    exact absurd (List.append_eq_nil_iff.mp hbuffer.symm).1 hne
  | answered answer earlier hsent hnone hearlier hanswer heq =>
    refine .answered answer earlier hsent hnone hearlier hanswer ?_
    rw [← heq, hbuffer]
    simp

theorem Inv.readHeader (h : c.Inv) (hco : c.coroutines t = some coroutine) {requestId : Int}
    (hawait : coroutine.await = .readingHeader requestId) :
    c.Keeps (c.readHeader t coroutine requestId) := by
  obtain ⟨hlock, hserves, hothers⟩ := h.locked.lock_eq hco (by simp [hawait])
  rw [Serves, hawait] at hserves
  have hread := c.readExactly_readexactly headerLen
  unfold AsyncClient.readHeader
  generalize c.readexactly headerLen = r at hread
  cases hread with
  | waiting => exact keeps_none h
  | incomplete => exact h.incomplete hco (by simp [hawait])
  | read header rest hlen hbuffer =>
    have hne : header ≠ [] := List.ne_nil_of_length_pos (hlen ▸ by decide)
    refine keeps_none (inv_setCoroutine (h.wired.consume hbuffer) hlock hothers ⟨hlen, ?_⟩)
    rcases hserves with hawaits | ⟨-, hempty⟩
    · exact Awaits.consume hawaits hne hbuffer
    · rw [hempty] at hbuffer
      exact absurd (List.append_eq_nil_iff.mp hbuffer.symm).1 hne

/-- The answer to a request, once all of it has been read. -/
theorem Awaits.done (h : c.Awaits frame consumed) (hconsumed : consumed.length = headerLen)
    {bytes rest : Bytes} (hlen : bytes.length = BigEndian.ofBytes (consumed.extract 16 20))
    (hbuffer : c.buffer = bytes ++ rest) :
    ({ c with buffer := rest } : AsyncClient).Quiet ∧ ∃ earlier,
      c.answers = earlier ++ [(frame, consumed ++ bytes)] ∧
        Answers frame.requestId frame.command (consumed ++ bytes) := by
  cases h with
  | written _ _ _ _ hempty | sent _ _ _ _ hempty =>
    rw [hempty] at hconsumed
    cases hconsumed
  | answered answer earlier hsent hnone hearlier hanswer heq =>
    obtain ⟨sent, -, -, hframe⟩ := id hanswer
    obtain ⟨header, payload, rfl, hheader, hpayload⟩ :=
      Protocol.exists_header_payload hframe.length_eq
    obtain ⟨rfl, hstream⟩ := List.append_inj heq (hconsumed.trans hheader.symm)
    rw [hbuffer, List.append_assoc, ← List.append_nil payload] at hstream
    obtain ⟨rfl, hrest⟩ := List.append_inj hstream (hlen.trans hpayload)
    obtain ⟨hrest, htransit⟩ := List.append_eq_nil_iff.mp hrest
    exact ⟨⟨hsent, hnone, hrest, htransit⟩, earlier, hearlier, hanswer⟩

theorem respond_of_answers {requestId : Int} {command : Command} {bytes : Bytes}
    (h : Answers requestId command bytes) (maxPayloadLen : Nat) :
    respond maxPayloadLen requestId command bytes =
      (Client.answerOf maxPayloadLen bytes).mapError .request := by
  rw [respond, Client.answerOf]
  cases hdecode : decodeResponseFrame bytes maxPayloadLen with
  | error e => rfl
  | ok response =>
    obtain ⟨hid, hcommand⟩ := h.header_eq hdecode
    dsimp only
    rw [if_neg (by simp [hid, hcommand])]
    cases response.payload <;> rfl

theorem Inv.readPayload (h : c.Inv) (hco : c.coroutines t = some coroutine) {requestId : Int}
    {header : Bytes} (hawait : coroutine.await = .readingPayload requestId header) :
    c.Keeps (c.readPayload t coroutine requestId header) := by
  obtain ⟨-, hserves, hothers⟩ := h.locked.lock_eq hco (by simp [hawait])
  rw [Serves, hawait] at hserves
  have hread := c.readExactly_readexactly (BigEndian.ofBytes (header.extract 16 20))
  unfold AsyncClient.readPayload
  generalize c.readexactly (BigEndian.ofBytes (header.extract 16 20)) = r at hread
  cases hread with
  | waiting => exact keeps_none h
  | incomplete => exact h.incomplete hco (by simp [hawait])
  | read payload rest hlen hbuffer =>
    obtain ⟨hquiet, earlier, hearlier, hanswer⟩ := hserves.2.done hserves.1 hlen hbuffer
    have hown := Rightful.own coroutine requestId header _ earlier hco hawait hearlier
    rw [← respond_of_answers hanswer] at hown
    exact keeps_some (inv_finish (h.wired.consume hbuffer) (fun _ => hquiet) hothers
      (.error .cancelled)) hown

/-! ## What the transport and the server do -/

/-- The first request is sent. -/
theorem Inv.sent (h : c.Inv) {request : RequestFrame} {outgoing : List RequestFrame}
    (houtgoing : c.outgoing = request :: outgoing) {lost connectionLost eof : Bool}
    (hclosing : lost = true → c.closing = true)
    (hlost : c.closing = true → outgoing = [] → lost = true) :
    ({ c with outgoing, requests := c.requests ++ [request], lost, connectionLost, eof } :
      AsyncClient).Inv := by
  have hne : c.outgoing ≠ [] := by rw [houtgoing]; exact List.cons_ne_nil _ _
  -- an open client has nothing to send but what the coroutine with the lock awaits
  have hclosed : (c.closed = false → c.Quiet) → c.closed = true := fun hquiet =>
    by_contra fun hopen => hne (hquiet (Bool.eq_false_iff.mpr hopen)).outgoing
  refine ⟨⟨h.wired.closing_of_closed, hclosing, hlost, fun _ => h.wired.unread hne⟩,
    h.locked.carry ⟨fun hawaits => ?_, fun hquiet hopen => ?_, id, id, fun _ => id⟩ rfl rfl⟩
  · cases hawaits with
    | written hone hnone hbuffer htransit hconsumed =>
      cases houtgoing.symm.trans hone
      exact .sent rfl (by rw [hnone]; rfl) hbuffer htransit hconsumed
    | sent hsent | answered _ _ hsent => exact absurd hsent hne
  · cases (hclosed hquiet).symm.trans hopen

theorem Inv.flush (h : c.Inv) : c.flush.Inv := by
  unfold AsyncClient.flush
  split
  · exact h
  · next request outgoing houtgoing =>
    split
    · exact h
    · dsimp only
      split
      · next hend =>
        rw [Bool.and_eq_true] at hend
        exact h.sent houtgoing (fun _ => hend.1) (fun _ _ => rfl)
      · next hend =>
        rw [Bool.and_eq_true, List.isEmpty_iff] at hend
        exact h.sent houtgoing h.wired.closing_of_lost fun hclosing hsent =>
          absurd ⟨hclosing, hsent⟩ hend

/-- What has not been sent never will be. -/
theorem Inv.forceClose (h : c.Inv) : c.forceClose.Inv := by
  have hquiet : c.Quiet → c.forceClose.Quiet := fun hq =>
    ⟨rfl, hq.requests, hq.buffer, hq.transit⟩
  have hvain : c.Vain → c.forceClose.Vain := fun hv => ⟨rfl, fun hopen => hquiet (hv.quiet hopen)⟩
  have hawaits : ∀ {frame consumed}, c.Awaits frame consumed →
      c.forceClose.Awaits frame consumed ∨ c.forceClose.Quiet ∧ consumed = [] := by
    intro frame consumed hawaits
    cases hawaits with
    | written _ hnone hbuffer htransit hconsumed =>
      exact .inr ⟨⟨rfl, hnone, hbuffer, htransit⟩, hconsumed⟩
    | sent _ hone hbuffer htransit hconsumed =>
      exact .inl (.sent rfl hone hbuffer htransit hconsumed)
    | answered bytes earlier _ hnone hearlier hbytes heq =>
      exact .inl (.answered bytes earlier rfl hnone hearlier hbytes heq)
  refine ⟨⟨fun _ => rfl, fun _ => rfl, fun _ _ => rfl, fun hne => absurd rfl hne⟩, ?_⟩
  cases h.locked with
  | free hlock hq hothers => exact .free hlock (fun hopen => hquiet (hq hopen)) hothers
  | held t coroutine hlock hco hserves hothers =>
    refine .held t coroutine hlock hco ?_ hothers
    obtain ⟨command, payload, await⟩ := coroutine
    cases await with
    | acquiring => exact hserves
    | draining requestId =>
      rcases hserves with hserves | hv
      · exact (hawaits hserves).imp_right fun hq => ⟨rfl, fun _ => hq.1⟩
      · exact .inr (hvain hv)
    | readingHeader requestId =>
      rcases hserves with hserves | hv
      · exact (hawaits hserves).imp_right fun hq => ⟨⟨rfl, fun _ => hq.1⟩, hq.1.buffer⟩
      · exact .inr ⟨hvain hv.1, hv.2⟩
    | readingPayload requestId header =>
      refine ⟨hserves.1, (hawaits hserves.2).resolve_right fun hq => ?_⟩
      have hlen := hserves.1
      rw [hq.2] at hlen
      cases hlen
    | closing error => exact hserves

theorem Inv.answer (h : c.Inv) {i : Nat} {bytes : Bytes}
    (hanswers : ∀ request, c.requests[i]? = some request →
      Answers request.requestId request.command bytes) : (c.answer i bytes).Inv := by
  unfold AsyncClient.answer
  split
  · exact h
  · next request hrequest =>
    refine ⟨⟨h.wired.1, h.wired.2, h.wired.3, h.wired.4⟩,
      h.locked.carry ⟨fun hawaits => ?_, fun hquiet hopen => ?_, id, id, fun _ => id⟩ rfl rfl⟩
    · cases hawaits with
      | written _ hnone | answered _ _ _ hnone =>
        rw [hnone] at hrequest
        cases hrequest
      | sent hsent hone hbuffer htransit hconsumed =>
        have hbytes := hanswers request hrequest
        rw [hone, List.getElem?_singleton] at hrequest
        split at hrequest
        · next hi =>
          cases hrequest
          subst hi
          exact .answered bytes c.answers hsent (by simp [hone]) rfl hbytes
            (by simp [hconsumed, hbuffer, htransit])
        · cases hrequest
    · rw [(hquiet hopen).requests] at hrequest
      cases hrequest

/-- A transport that reads has sent what is awaited before anything arrives. -/
theorem Awaits.unread (h : c.Awaits frame consumed) (hne : c.outgoing ≠ []) :
    c.buffer ++ c.transit = [] := by
  cases h with
  | written _ _ hbuffer htransit => rw [hbuffer, htransit]; rfl
  | sent hsent | answered _ _ hsent => exact absurd hsent hne

/-- What an open transport has not sent is the request that is awaited. -/
theorem Inv.unread (h : c.Inv) (hclosing : c.closing = false) (hne : c.outgoing ≠ []) :
    c.buffer ++ c.transit = [] := by
  have hopen : c.closed = false :=
    Bool.eq_false_iff.mpr fun hclosed => by
      cases (h.wired.closing_of_closed hclosed).symm.trans hclosing
  cases h.locked with
  | free _ hquiet => exact absurd (hquiet hopen).outgoing hne
  | held t coroutine _ _ hserves =>
    obtain ⟨command, payload, await⟩ := coroutine
    cases await with
    | acquiring => exact absurd hserves id
    | draining requestId =>
      rcases hserves with hawaits | hvain
      · exact hawaits.unread hne
      · exact absurd (hvain.quiet hopen).outgoing hne
    | readingHeader requestId =>
      rcases hserves with hawaits | hvain
      · exact hawaits.unread hne
      · exact absurd (hvain.1.quiet hopen).outgoing hne
    | readingPayload requestId header => exact hserves.2.unread hne
    | closing error => cases hserves.1.symm.trans hopen

theorem Inv.receive (h : c.Inv) (n : Nat) : (c.receive n).Inv := by
  unfold AsyncClient.receive
  split
  · exact h
  · next hreads =>
    rw [Bool.or_eq_true, not_or, Bool.not_eq_true, Bool.not_eq_true] at hreads
    have hstream : c.buffer ++ c.transit.take n ++ c.transit.drop n = c.buffer ++ c.transit := by
      rw [List.append_assoc, List.take_append_drop]
    refine ⟨⟨h.wired.1, h.wired.2, h.wired.3, fun hne => ?_⟩, h.locked.carry
      ⟨fun hawaits => hawaits.congr rfl rfl hstream rfl, fun hquiet hopen => ?_, id, id,
        fun hclosing => ?_⟩ rfl rfl⟩
    · have hunread := h.unread hreads.2 hne
      rw [← hstream, List.append_eq_nil_iff] at hunread
      exact hunread.1
    · have hq := hquiet hopen
      exact ⟨hq.outgoing, hq.requests, by simp [hq.buffer, hq.transit], by simp [hq.transit]⟩
    · cases hreads.2.symm.trans hclosing

/-- The stream gets to know that there is nothing more to receive. -/
theorem Inv.told (h : c.Inv) (eof connectionLost : Bool) :
    ({ c with eof, connectionLost } : AsyncClient).Inv :=
  ⟨⟨h.wired.1, h.wired.2, h.wired.3, h.wired.4⟩,
    h.locked.carry (SameTraffic.carries ⟨rfl, rfl, rfl, rfl, rfl, id, id⟩) rfl rfl⟩

/-! ## Steps and runs -/

theorem Inv.closing (h : c.Inv) (hco : c.coroutines t = some coroutine) {error : AsyncError}
    (hawait : coroutine.await = .closing error) {raised : AsyncError}
    (hraised : raised = error ∨ raised = .cancelled) : c.Keeps (c.finish t (.error raised)) := by
  obtain ⟨-, hserves, hothers⟩ := h.locked.lock_eq hco (by simp [hawait])
  rw [Serves, hawait] at hserves
  obtain ⟨hclosed, herror⟩ := hserves
  have hquiet : c.closed = false → c.Quiet := fun hopen => by cases hclosed.symm.trans hopen
  refine keeps_some (inv_finish h.wired hquiet hothers (.error raised)) ?_
  obtain rfl | rfl := hraised
  · obtain rfl | rfl := herror
    · exact .cancelled
    · exact .closed _ hclosed
  · exact .cancelled

theorem Inv.resume (h : c.Inv) (hco : c.coroutines t = some coroutine) (wakeup : Wakeup) :
    c.Keeps (c.resume t coroutine wakeup) := by
  obtain ⟨command, payload, await⟩ := coroutine
  cases await with
  | acquiring =>
    cases wakeup with
    | ready =>
      unfold AsyncClient.resume
      dsimp only
      split
      · next hfree => exact h.acquire hco (Option.isNone_iff_eq_none.mp hfree) (by simp)
      · exact keeps_none h
    | failed =>
      unfold AsyncClient.resume
      dsimp only
      split
      · next hgone =>
        exact h.acquire hco (Option.isNone_iff_eq_none.mp hgone.1) (fun _ => hgone.2)
      · exact keeps_none h
    | cancelled => exact keeps_some (h.setWaiting (by simp [hco]) (by simp)) .cancelled
  | draining requestId =>
    cases wakeup with
    | ready => exact h.drain hco rfl
    | failed => exact h.abandon hco (by simp) (.inr rfl)
    | cancelled => exact h.abandon hco (by simp) (.inl rfl)
  | readingHeader requestId =>
    cases wakeup with
    | ready => exact h.readHeader hco rfl
    | failed => exact h.abandon hco (by simp) (.inr rfl)
    | cancelled => exact h.abandon hco (by simp) (.inl rfl)
  | readingPayload requestId header =>
    cases wakeup with
    | ready => exact h.readPayload hco rfl
    | failed => exact h.abandon hco (by simp) (.inr rfl)
    | cancelled => exact h.abandon hco (by simp) (.inl rfl)
  | closing error =>
    cases wakeup with
    | ready =>
      unfold AsyncClient.resume
      dsimp only
      split
      · exact h.closing hco rfl (.inl rfl)
      · exact keeps_none h
    | failed => exact h.closing hco rfl (.inl rfl)
    | cancelled => exact h.closing hco rfl (.inr rfl)

theorem Inv.step (h : c.Inv) {action : Action} (hconforms : c.Conforms action) :
    c.Keeps (c.step action) := by
  cases action with
  | request t command payload =>
    unfold AsyncClient.step
    dsimp only
    split
    · next hnone => exact h.request hnone command payload
    · exact keeps_none h
  | resume t wakeup =>
    unfold AsyncClient.step
    dsimp only
    split
    · exact keeps_none h
    · next coroutine hco => exact h.resume hco wakeup
  | close => exact keeps_none h.close
  | flush => exact keeps_none h.flush
  | answer i bytes => exact keeps_none (h.answer hconforms)
  | receive n => exact keeps_none (h.receive n)
  | eof => exact keeps_none (h.told true c.connectionLost)
  | lose => exact keeps_none h.forceClose
  | connectionLost =>
    refine keeps_none ?_
    split
    · exact h.told true true
    · exact h

end

theorem inv_new (maxPayloadLen : Nat) : (new maxPayloadLen).Inv := by
  refine ⟨⟨fun h => ?_, fun h => ?_, fun h => ?_, fun h => absurd rfl h⟩,
    .free rfl (fun _ => ⟨rfl, rfl, rfl, rfl⟩) fun t coroutine h => ?_⟩
  all_goals cases h

theorem Awaits.unanswered_le_one {c : AsyncClient} {frame : RequestFrame} {consumed : Bytes}
    (h : c.Awaits frame consumed) : (c.outgoing ++ c.requests).length ≤ 1 := by
  cases h with
  | written hone hnone => rw [hone, hnone]; exact Nat.le_refl 1
  | sent hnone hone => rw [hnone, hone]; exact Nat.le_refl 1
  | answered _ _ hsent hnone => rw [hsent, hnone]; exact Nat.zero_le 1

theorem Quiet.unanswered_le_one {c : AsyncClient} (h : c.Quiet) :
    (c.outgoing ++ c.requests).length ≤ 1 := by
  rw [h.outgoing, h.requests]
  exact Nat.zero_le 1

theorem Inv.unanswered_le_one {c : AsyncClient} (h : c.Inv) (hopen : c.closed = false) :
    (c.outgoing ++ c.requests).length ≤ 1 := by
  cases h.locked with
  | free _ hquiet => exact (hquiet hopen).unanswered_le_one
  | held t coroutine _ _ hserves =>
    obtain ⟨command, payload, await⟩ := coroutine
    cases await with
    | acquiring => exact absurd hserves id
    | draining requestId =>
      exact hserves.elim Awaits.unanswered_le_one fun hv => (hv.quiet hopen).unanswered_le_one
    | readingHeader requestId =>
      exact hserves.elim Awaits.unanswered_le_one fun hv => (hv.1.quiet hopen).unanswered_le_one
    | readingPayload requestId header => exact hserves.2.unanswered_le_one
    | closing error => cases hserves.1.symm.trans hopen

theorem Inv.lock_iff {c : AsyncClient} (h : c.Inv) (t : Nat) :
    c.lock = some t ↔ ∃ coroutine, c.coroutines t = some coroutine ∧
      coroutine.await ≠ .acquiring := by
  constructor
  · intro hlock
    cases h.locked with
    | free hfree => cases hfree.symm.trans hlock
    | held t₀ coroutine hheld hco hserves =>
      cases hheld.symm.trans hlock
      refine ⟨coroutine, hco, fun hawait => ?_⟩
      rw [Serves, hawait] at hserves
      exact hserves
  · rintro ⟨coroutine, hco, hawait⟩
    exact (h.locked.lock_eq hco hawait).1

/-- **A caller is given the response to its own request, or none.** In every interleaving of the
calls of any number of coroutines, cancelled and failed at any await, with a transport that sends
when it can, a server that answers each request with a response of its id and command, in any order,
and a network that delivers bytes as it likes, every call that ends does so with what is due to it.
As long as the client is not closed at most one request is unsent or unanswered, and the lock is
held exactly by a coroutine that is past it and has not ended. -/
theorem responses_reach_their_requests (maxPayloadLen : Nat) (actions : List Action)
    (hconforms : ∀ ev ∈ Machine.history step (new maxPayloadLen) actions,
      ev.before.Conforms ev.action) :
    (∀ ev ∈ Machine.history step (new maxPayloadLen) actions, ∀ t result,
      ev.outcome = some (t, result) → ev.before.Rightful t result) ∧
    let c := Machine.run step (new maxPayloadLen) actions
    (c.closed = false → (c.outgoing ++ c.requests).length ≤ 1) ∧
      ∀ t, c.lock = some t ↔ ∃ coroutine, c.coroutines t = some coroutine ∧
        coroutine.await ≠ .acquiring := by
  have hstep : ∀ (c : AsyncClient) action, c.Conforms action → c.Inv → (c.step action).2.Inv :=
    fun c action hc h => (h.step hc).1
  have hrun := Machine.run_invariant_allowed hstep (inv_new maxPayloadLen) hconforms
  refine ⟨?_, hrun.unanswered_le_one, hrun.lock_iff⟩
  exact Machine.forall_mem_history hstep (fun c action hc h => (h.step hc).2)
    (inv_new maxPayloadLen) hconforms

def hitBytes : Bytes := (Protocol.encodeResponseFrame ⟨1, .get, .hit [7]⟩).getD []

theorem answers_hitBytes : Answers 1 .get hitBytes :=
  ⟨(1, .get), rfl, rfl, @NativeClient.answers_encode ⟨1, .get, .hit [7]⟩ (by decide)⟩

/-- Two coroutines ask for a key each, and the first has sent its request. -/
def twoGets : List Action :=
  [.request 0 .get (.get "default" [1]), .request 1 .get (.get "default" [2]), .resume 0 .ready,
    .flush, .resume 0 .ready]

/-- The first is answered; the second is cancelled while it waits for its answer. -/
def thenCancelled : List Action :=
  [.receive 100, .resume 0 .ready, .resume 0 .ready, .resume 1 .ready, .flush, .resume 1 .ready,
    .resume 1 .cancelled, .connectionLost, .resume 1 .ready, .request 2 .get (.get "default" [1])]

theorem responses_reach_their_requests_twoGets :
    (Machine.history step (new 1024) (twoGets ++ .answer 0 hitBytes :: thenCancelled)).filterMap
        (·.outcome) =
      [(2, .error (.request (.connectionClosed "connection is closed"))), (1, .error .cancelled),
        (0, .ok (.hit [7]))] ∧
    ∀ ev ∈ Machine.history step (new 1024) (twoGets ++ .answer 0 hitBytes :: thenCancelled),
      ∀ t result, ev.outcome = some (t, result) → ev.before.Rightful t result := by
  refine ⟨by decide +kernel, (responses_reach_their_requests 1024 _ fun ev hev => ?_).1⟩
  rw [Machine.history_append_cons, List.mem_append, List.mem_cons] at hev
  obtain hev | rfl | hev := hev
  · have hmem := Machine.action_mem _ hev
    simp only [thenCancelled, List.mem_cons, List.not_mem_nil, or_false] at hmem
    obtain h | h | h | h | h | h | h | h | h | h := hmem <;> rw [h] <;> trivial
  · intro request hrequest
    have hone : (Machine.run step (new 1024) twoGets).requests =
        [⟨1, .get, .get "default" [1]⟩] := by decide +kernel
    rw [show (Machine.event step (Machine.run step (new 1024) twoGets)
      (.answer 0 hitBytes)).before.requests = _ from hone] at hrequest
    cases hrequest
    exact answers_hitBytes
  · have hmem := Machine.action_mem _ hev
    simp only [twoGets, List.mem_cons, List.not_mem_nil, or_false] at hmem
    obtain h | h | h | h | h := hmem <;> rw [h] <;> trivial

/-- Two coroutines are at it when the client is closed. The first has a request left to send and is
cancelled again while it waits for the end of the connection, so that the second gets to send its
own. -/
def cancelledTwice : List Action :=
  [.request 0 .get (.get "default" [1]), .request 1 .get (.get "default" [2]), .resume 0 .ready,
    .resume 0 .cancelled, .resume 0 .cancelled, .resume 1 .ready, .flush, .flush]

-- a closed client may have several requests unanswered
example : ((Machine.run step (new 1024) cancelledTwice).requests.map (·.requestId)) = [1, 2] := by
  decide +kernel

end AsyncClient
end Python
end Cachebox
