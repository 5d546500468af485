import Cachebox.Client.Pipeline
import Cachebox.Protocol.Lossless

/-!
# The Rust client and the responses it has not read

A call that reads all responses to its requests leaves nothing for the next call. `request` always
does. A pipelined call stops at the first response that it cannot decode, and the responses after
it stay in the stream.
-/

namespace Cachebox
open Protocol NativeStream

namespace NativeClient
open PipelinedResponseMatcher

/-! ## Runs -/

inductive Operation where
  | request (command : Command) (payload : RequestPayload)
  | requestPipelined (requests : List (Command × RequestPayload))
      (hlen : requests.length ≤ usizeMax)
  | setMaxPayloadLen (maxPayloadLen : Nat)

/-- The requests that a call sends. -/
def Operation.requests : Operation → List (Command × RequestPayload)
  | request command payload => [(command, payload)]
  | requestPipelined requests _ => requests
  | setMaxPayloadLen _ => []

def exec (c : NativeClient) (op : Operation) (x : Exchange) :
    Option (Except ClientError (List ResponsePayload) × NativeClient) :=
  match op with
  | .request command payload =>
    (c.request command payload x).map fun (result, c) => (result.map ([·]), c)
  | .requestPipelined requests _ => c.requestPipelined requests x
  | .setMaxPayloadLen maxPayloadLen => some (.ok [], c.setMaxPayloadLen maxPayloadLen)

/-- A response frame with the id and the command of its request. -/
def Answers (sent : UInt64 × Command) (b : Bytes) : Prop :=
  ∃ body, body.length < 2 ^ 32 ∧ b = frameBytes kindResponse sent.2 sent.1 body

/-- The server has received the requests of a call and answers each once, in any order. -/
def Answered (c : NativeClient) (op : Operation) (x : Exchange) : Prop :=
  x.writeFails = false → ∃ frames, x.answer.Perm frames ∧
    List.Forall₂ Answers (sentBy c.nextRequestId op.requests) frames

/-- The clients after a run of calls that are answered and meet the condition `ok`. -/
inductive Reaches (ok : NativeClient → Operation → Exchange → Prop) : NativeClient → Prop
  | connect : Reaches ok connect
  | call {c c' : NativeClient} {op : Operation} {x : Exchange}
    {result : Except ClientError (List ResponsePayload)} :
    Reaches ok c → c.Answered op x → ok c op x → c.exec op x = some (result, c') → Reaches ok c'

/-- The transport does not fail. -/
def Steady (x : Exchange) : Prop := x.writeFails = false ∧ x.failsAfter = none

/-- Every response to the call but the last to arrive can be decoded. -/
def Decodable (c : NativeClient) (x : Exchange) : Prop :=
  ∀ b ∈ x.answer.dropLast, ∃ response, decodeResponseFrame b c.maxPayloadLen = .ok response

/-! ## Frames of the server -/

variable {sent : List (UInt64 × Command)} {maxPayloadLen : Nat}

theorem Answers.length_eq {s : UInt64 × Command} {b : Bytes} (h : Answers s b) :
    b.length = headerLen + payloadLen b := by
  obtain ⟨body, hbody, rfl⟩ := h
  have hpayload := payloadLen_frameBytes kindResponse s.2 s.1 hbody []
  rw [List.append_nil] at hpayload
  rw [length_frameBytes, hpayload]

theorem Answers.header_eq {s : UInt64 × Command} {b : Bytes} (h : Answers s b)
    {response : ResponseFrame} (hdecode : decodeResponseFrame b maxPayloadLen = .ok response) :
    header response = s := by
  obtain ⟨body, hbody, rfl⟩ := h
  obtain ⟨payload, suffix, heq, -, hpayload, -⟩ :=
    (decodeFrame_eq_ok_iff parses_decodeResponsePayload).mp hdecode
  rw [← List.append_nil (frameBytes ..)] at heq
  obtain ⟨hcommand, hid, -⟩ := frameBytes_append_inj hbody hpayload heq
  exact Prod.ext hid.symm hcommand.symm

/-! ## Pipelined calls -/

/-- What reading the responses to the requests of a call ends with. -/
inductive Received (sent : List (UInt64 × Command)) (maxPayloadLen : Nat) (frames : List Bytes)
    (failsAfter : Option Nat) : Except ClientError PipelinedResponseMatcher × NativeStream → Prop
  | failed {r : Except ClientError PipelinedResponseMatcher × NativeStream} :
    IoFailed failsAfter r → Received sent maxPayloadLen frames failsAfter r
  | undecodable {e : DecodeError} {s : NativeStream} :
    ((∀ b ∈ frames.dropLast, ∃ response, decodeResponseFrame b maxPayloadLen = .ok response) →
      s.unread = []) → Received sent maxPayloadLen frames failsAfter (.error (.decode e), s)
  | all {done : List ResponseFrame} {m : PipelinedResponseMatcher} {s : NativeStream} :
    Matched sent done m → (done.map header).Perm sent → s.unread = [] →
    Received sent maxPayloadLen frames failsAfter (.ok m, s)

theorem Received.cons {frames : List Bytes} {failsAfter failsAfter' : Option Nat}
    {r : Except ClientError PipelinedResponseMatcher × NativeStream}
    (h : Received sent maxPayloadLen frames failsAfter' r)
    (hsome : failsAfter'.isSome = failsAfter.isSome) (b : Bytes) :
    Received sent maxPayloadLen (b :: frames) failsAfter r := by
  cases h with
  | failed hfailed => exact .failed ⟨hsome ▸ hfailed.1, hfailed.2⟩
  | undecodable hunread =>
    refine .undecodable fun hall => hunread fun b' hb' => hall b' ?_
    rw [List.dropLast_cons_of_ne_nil (List.ne_nil_of_mem (List.mem_of_mem_dropLast hb'))]
    exact List.mem_cons_of_mem _ hb'
  | all hm hperm hunread => exact .all hm hperm hunread

theorem answersOnce_of_perm (hsent : (sent.map Prod.fst).Nodup) {rem : List (UInt64 × Command)}
    {done : List ResponseFrame} {response : ResponseFrame} (h : AnswersOnce sent done)
    (hperm : (header response :: rem ++ done.map header).Perm sent) :
    AnswersOnce sent (response :: done) := by
  refine answersOnce_cons.mpr ⟨h, hperm.subset List.mem_cons_self, fun hmem => ?_⟩
  have hnodup := (hperm.map Prod.fst).nodup_iff.mpr hsent
  rw [List.cons_append, List.map_cons, List.nodup_cons, List.map_append, List.map_map] at hnodup
  exact hnodup.1 (List.mem_append_right _ hmem)

/-- The loop pushes the responses that it can decode and stops at the first that it cannot. -/
theorem received_of_answers (hsent : (sent.map Prod.fst).Nodup) {rem : List (UInt64 × Command)}
    {frames : List Bytes} (h : List.Forall₂ Answers rem frames) {done : List ResponseFrame}
    (hperm : (rem ++ done.map header).Perm sent) {m : PipelinedResponseMatcher}
    (hm : Matched sent done m) (maxPayloadLen : Nat) (failsAfter : Option Nat) :
    Received sent maxPayloadLen frames failsAfter
      (m.receive maxPayloadLen frames.length ⟨frames.flatten, failsAfter⟩) := by
  induction h generalizing done m failsAfter with
  | nil => exact .all hm hperm rfl
  | @cons s b rem frames hb _ ih =>
    rw [List.length_cons, receive, List.flatten_cons]
    rcases readResponseFrame_append hb.length_eq frames.flatten failsAfter maxPayloadLen with
      hfailed | ⟨failsAfter', hsome, hread⟩
    · exact .failed (hfailed.bind _)
    cases hdecode : decodeResponseFrame b maxPayloadLen with
    | error e =>
      rw [decoded, hdecode] at hread
      rw [bind_of_error hread]
      refine .undecodable fun hall => ?_
      cases frames with
      | nil => rfl
      | cons b' frames =>
        obtain ⟨response, hok⟩ := hall b List.mem_cons_self
        rw [hdecode] at hok
        cases hok
    | ok response =>
      rw [decoded, hdecode] at hread
      rw [bind_of_ok hread]
      obtain rfl := hb.header_eq hdecode
      have hpush := hm.push hsent response
      cases hr : m.push response with
      | error e =>
        rw [hr] at hpush
        exact absurd (answersOnce_of_perm hsent hm.toAnswersOnce hperm) hpush.2
      | ok m' =>
        rw [hr] at hpush
        have hrest : (rem ++ (response :: done).map header).Perm sent :=
          List.perm_middle.trans hperm
        exact (ih hrest hpush failsAfter').cons hsome b

/-! ## Calls -/

/-- The client has read everything, and its next request id is not zero. -/
structure Aligned (c : NativeClient) : Prop where
  unread : c.stream.unread = []
  nextRequestId : c.nextRequestId ≠ 0

/-- What a call by an aligned client ends with. -/
structure Ended (c : NativeClient) (x : Exchange)
    (result : Except ClientError (List ResponsePayload)) (c' : NativeClient) : Prop where
  nextRequestId : c'.nextRequestId ≠ 0
  io : Steady x → result ≠ .error .io
  unexpected : ∀ message, result ≠ .error (.unexpectedResponse message)
  unread : c.Decodable x → result ≠ .error .io → c'.stream.unread = []

variable {c c' : NativeClient} {x : Exchange}

theorem ended_io (hnext : c'.nextRequestId ≠ 0) (hx : ¬Steady x) :
    Ended c x (.error .io) c' where
  nextRequestId := hnext
  io hsteady := absurd hsteady hx
  unexpected := nofun
  unread _ h := absurd rfl h

theorem not_steady_of_isSome (h : x.failsAfter.isSome) : ¬Steady x := fun hsteady => by
  rw [hsteady.2] at h
  cases h

theorem Received.ended {r : Except ClientError PipelinedResponseMatcher × NativeStream}
    (h : Received sent c.maxPayloadLen x.answer x.failsAfter r) (hnext : c'.nextRequestId ≠ 0) :
    Ended c x (r.1 >>= finish) { c' with stream := r.2 } := by
  cases h with
  | failed hfailed =>
    rw [hfailed.2]
    exact ended_io hnext (not_steady_of_isSome hfailed.1)
  | undecodable hunread => exact ⟨hnext, nofun, nofun, fun hdecodable _ => hunread hdecodable⟩
  | all hm hperm hunread =>
    obtain ⟨ordered, hordered⟩ := exists_inOrder hperm
    have hfinish := hm.finish hordered
    refine ⟨hnext, fun _ => ?_, fun message => ?_, fun _ _ => hunread⟩
    · exact hfinish.trans_ne (collect_ne_io _)
    · exact hfinish.trans_ne (collect_ne_unexpectedResponse _ message)

/-- The frames that answer the requests, in the order in which they arrive. -/
theorem Answered.forall₂ {op : Operation} (h : c.Answered op x) (hwrite : x.writeFails = false) :
    ∃ rem, rem.Perm (sentBy c.nextRequestId op.requests) ∧ List.Forall₂ Answers rem x.answer := by
  obtain ⟨frames, hperm, hframes⟩ := h hwrite
  have hcomp : Relation.Comp (List.Forall₂ Answers) List.Perm
      (sentBy c.nextRequestId op.requests) x.answer := ⟨frames, hframes, hperm.symm⟩
  rw [List.forall₂_comp_perm_eq_perm_comp_forall₂] at hcomp
  obtain ⟨rem, hrem, hanswers⟩ := hcomp
  exact ⟨rem, hrem.symm, hanswers⟩

theorem encodable_of_addAll {requests : List (Command × RequestPayload)} {out out' : Outgoing}
    {index : Nat} (h : out.addAll index requests = some out') : ∀ r ∈ requests, Encodable r.2 := by
  induction requests generalizing out index with
  | nil => nofun
  | cons r requests ih =>
    obtain ⟨command, payload⟩ := r
    rw [Outgoing.addAll, Option.bind_eq_bind, Option.bind_eq_some_iff] at h
    obtain ⟨next, hadd, hrest⟩ := h
    rw [Outgoing.add, Option.bind_eq_bind, Option.bind_eq_some_iff] at hadd
    obtain ⟨frame, hframe, -⟩ := hadd
    exact List.forall_mem_cons.mpr ⟨(encodable_iff ..).mpr ⟨frame, hframe⟩, ih hrest⟩

theorem perform_eq_some {α : Type} {c₁ : NativeClient} {action : StreamM α}
    {r result : Except ClientError α} {stream : NativeStream}
    (h : some (c₁.perform action) = some (result, c'))
    (haction : action c₁.stream = (r, stream)) : result = r ∧ c' = { c₁ with stream } := by
  rw [perform, haction] at h
  cases h
  exact ⟨rfl, rfl⟩

theorem writeAll_failed {α : Type} (hwrite : x.writeFails = true) (s : NativeStream)
    (f : Unit → StreamM α) : ∃ s', (writeAll x >>= f) s = (.error .io, s') :=
  ⟨_, bind_of_error (by rw [writeAll, hwrite]; rfl) f⟩

theorem exchangeAll_failed (hwrite : x.writeFails = true) (m : PipelinedResponseMatcher)
    (maxPayloadLen n : Nat) (s : NativeStream) :
    ∃ s', exchangeAll m maxPayloadLen n x s = (.error .io, s') := by
  rw [exchangeAll]
  exact writeAll_failed hwrite s _

theorem not_steady_of_writeFails (h : x.writeFails = true) : ¬Steady x := fun hsteady => by
  rw [hsteady.1] at h
  cases h

theorem requestPipelined_ended (hc : c.Aligned) {requests : List (Command × RequestPayload)}
    {hlen : requests.length ≤ usizeMax} (hx : c.Answered (.requestPipelined requests hlen) x)
    {result : Except ClientError (List ResponsePayload)}
    (h : c.requestPipelined requests x = some (result, c')) : Ended c x result c' := by
  by_cases hne : requests = []
  · subst hne
    cases h
    exact ⟨hc.nextRequestId, nofun, nofun, fun _ _ => hc.unread⟩
  have hfits : ∀ r ∈ requests, Encodable r.2 := by
    rw [requestPipelined, if_neg (List.length_eq_zero_iff.not.mpr hne), Option.bind_eq_bind,
      Option.bind_eq_some_iff] at h
    obtain ⟨out, hadd, -⟩ := h
    exact encodable_of_addAll hadd
  have hlt : requests.length < 2 ^ 64 := Nat.lt_of_le_of_lt hlen (by decide)
  obtain ⟨out, -, hout, hnew, hcall⟩ := requestPipelined_eq hc.nextRequestId hne hlt hfits x
  have hnext : out.nextRequestId ≠ 0 :=
    hout.nextRequestId ▸ iterate_advance_ne_zero hc.nextRequestId _
  cases hwrite : x.writeFails with
  | true =>
    obtain ⟨s', hs'⟩ := exchangeAll_failed hwrite (.new requests.length out.expected)
      c.maxPayloadLen requests.length c.stream
    obtain ⟨rfl, rfl⟩ := perform_eq_some (hcall.symm.trans h) hs'
    exact ended_io hnext (not_steady_of_writeFails hwrite)
  | false =>
    obtain ⟨rem, hperm, hanswers⟩ := hx.forall₂ hwrite
    have hcount : x.answer.length = requests.length := by
      rw [← hanswers.length_eq, hperm.length_eq, length_sentBy]
      rfl
    have hsent : ((sentBy c.nextRequestId requests).map Prod.fst).Nodup :=
      map_fst_sentBy .. ▸ nodup_requestIds hc.nextRequestId hlt
    have hreceived := received_of_answers hsent hanswers (by rwa [List.map_nil, List.append_nil])
      hnew c.maxPayloadLen x.failsAfter
    rw [hcount, ← List.nil_append x.answer.flatten, ← hc.unread] at hreceived
    generalize hr : PipelinedResponseMatcher.receive _ _ _ _ = r at hreceived
    obtain ⟨rfl, rfl⟩ := perform_eq_some (hcall.symm.trans h)
      (exchangeAll_eq (.new requests.length out.expected) c.maxPayloadLen requests.length c.stream
        hwrite hr)
    exact hreceived.ended hnext

/-- What `request` does on the stream. -/
def exchangeOne (requestId : UInt64) (command : Command) (maxPayloadLen : Nat) (x : Exchange) :
    StreamM ResponsePayload := do
  writeAll x
  let response ← readResponseFrame maxPayloadLen
  if response.requestId ≠ requestId ∨ response.command ≠ command then
    throw (.unexpectedResponse "response header mismatch")
  match response.payload with
  | .error code message => throw (.server code message)
  | payload => return payload

/-- What the response to a request says. -/
def answerOf (maxPayloadLen : Nat) (b : Bytes) : Except ClientError ResponsePayload :=
  match decoded maxPayloadLen b with
  | .error e => .error e
  | .ok response =>
    match response.payload with
    | .error code message => .error (.server code message)
    | payload => .ok payload

theorem exchangeOne_failed (hwrite : x.writeFails = true) (requestId : UInt64)
    (command : Command) (maxPayloadLen : Nat) (s : NativeStream) :
    ∃ s', exchangeOne requestId command maxPayloadLen x s = (.error .io, s') := by
  rw [exchangeOne]
  exact writeAll_failed hwrite s _

theorem exchangeOne_eq {requestId : UInt64} {command : Command} {b : Bytes}
    (hb : Answers (requestId, command) b) (hwrite : x.writeFails = false) (hanswer : x.answer = [b])
    {s : NativeStream} (hs : s.unread = []) (maxPayloadLen : Nat) :
    IoFailed x.failsAfter (exchangeOne requestId command maxPayloadLen x s) ∨
      ∃ failsAfter', exchangeOne requestId command maxPayloadLen x s =
        (answerOf maxPayloadLen b, ⟨[], failsAfter'⟩) := by
  have hsent : writeAll x s = (.ok (), ⟨b ++ [], x.failsAfter⟩) := by
    rw [writeAll, hwrite, hs, hanswer]
    rfl
  rw [exchangeOne, bind_of_ok hsent]
  rcases readResponseFrame_append hb.length_eq [] x.failsAfter maxPayloadLen with
    hfailed | ⟨failsAfter', -, hread⟩
  · exact .inl (hfailed.bind _)
  refine .inr ⟨failsAfter', ?_⟩
  cases hdecode : decodeResponseFrame b maxPayloadLen with
  | error e =>
    rw [decoded, hdecode] at hread
    rw [bind_of_error hread, answerOf, decoded, hdecode]
    rfl
  | ok response =>
    rw [decoded, hdecode] at hread
    rw [bind_of_ok hread, answerOf, decoded, hdecode]
    cases hb.header_eq hdecode
    rw [if_neg (by simp)]
    change _ = (match response.payload with
      | .error code message => Except.error (ClientError.server code message)
      | payload => .ok payload, _)
    cases response.payload <;> rfl

theorem error_of_answerOf {maxPayloadLen : Nat} {b : Bytes} {e : ClientError}
    (h : answerOf maxPayloadLen b = .error e) :
    e ≠ .io ∧ ∀ message, e ≠ .unexpectedResponse message := by
  rw [answerOf, decoded] at h
  cases hdecode : decodeResponseFrame b maxPayloadLen with
  | error e' =>
    rw [hdecode] at h
    cases h
    exact ⟨by simp, by simp⟩
  | ok response =>
    rw [hdecode] at h
    obtain ⟨_, _, payload⟩ := response
    cases payload with
    | error code message =>
      cases h
      exact ⟨by simp, by simp⟩
    | _ => cases h

theorem request_eq_some {command : Command} {payload : RequestPayload}
    {result : Except ClientError ResponsePayload}
    (h : c.request command payload x = some (result, c')) :
    some (perform { c with nextRequestId := advance c.nextRequestId }
      (exchangeOne c.nextRequestId command c.maxPayloadLen x)) = some (result, c') := by
  rw [request, Option.bind_eq_bind, Option.bind_eq_some_iff] at h
  obtain ⟨frame, -, hcall⟩ := h
  rw [exchangeOne]
  exact hcall

theorem Answered.request {command : Command} {payload : RequestPayload}
    (h : c.Answered (.request command payload) x) (hwrite : x.writeFails = false) :
    ∃ b, x.answer = [b] ∧ Answers (c.nextRequestId, command) b := by
  obtain ⟨frames, hperm, hframes⟩ := h hwrite
  obtain ⟨b, hb, rfl⟩ : ∃ b, Answers (c.nextRequestId, command) b ∧ frames = [b] := by
    cases hframes with
    | cons hb hnil =>
      cases hnil
      exact ⟨_, hb, rfl⟩
  exact ⟨b, List.perm_singleton.mp hperm, hb⟩

/-- `request` reads its response whatever it is. -/
theorem request_ended (hc : c.Aligned) {command : Command} {payload : RequestPayload}
    (hx : c.Answered (.request command payload) x) {result : Except ClientError ResponsePayload}
    (h : c.request command payload x = some (result, c')) :
    c'.nextRequestId ≠ 0 ∧ (result = .error .io ∧ ¬Steady x ∨
      result = answerOf c.maxPayloadLen x.answer.flatten ∧ c'.stream.unread = []) := by
  have hcall := request_eq_some h
  have hnext := advance_ne_zero hc.nextRequestId
  cases hwrite : x.writeFails with
  | true =>
    obtain ⟨s', hs'⟩ := exchangeOne_failed hwrite c.nextRequestId command c.maxPayloadLen c.stream
    obtain ⟨rfl, rfl⟩ := perform_eq_some hcall hs'
    exact ⟨hnext, .inl ⟨rfl, not_steady_of_writeFails hwrite⟩⟩
  | false =>
    obtain ⟨b, hanswer, hb⟩ := hx.request hwrite
    rcases exchangeOne_eq hb hwrite hanswer hc.unread c.maxPayloadLen with
      ⟨hsome, hfailed⟩ | ⟨failsAfter', hexchange⟩
    · obtain ⟨rfl, rfl⟩ := perform_eq_some hcall rfl
      exact ⟨hnext, .inl ⟨hfailed, not_steady_of_isSome hsome⟩⟩
    · obtain ⟨rfl, rfl⟩ := perform_eq_some hcall hexchange
      rw [hanswer, List.flatten_singleton]
      exact ⟨hnext, .inr ⟨rfl, rfl⟩⟩

theorem exec_ended (hc : c.Aligned) {op : Operation} (hx : c.Answered op x)
    {result : Except ClientError (List ResponsePayload)} (h : c.exec op x = some (result, c')) :
    Ended c x result c' := by
  cases op with
  | request command payload =>
    rw [exec, Option.map_eq_some_iff] at h
    obtain ⟨⟨r, c₁⟩, hrequest, heq⟩ := h
    cases heq
    obtain ⟨hnext, ⟨rfl, hsteady⟩ | ⟨rfl, hunread⟩⟩ := request_ended hc hx hrequest
    · exact ended_io hnext hsteady
    · cases hanswer : answerOf c.maxPayloadLen x.answer.flatten with
      | ok payload => exact ⟨hnext, nofun, nofun, fun _ _ => hunread⟩
      | error e =>
        obtain ⟨hio, hunexpected⟩ := error_of_answerOf hanswer
        exact ⟨hnext, fun _ he => hio (by cases he; rfl),
          fun message he => hunexpected message (by cases he; rfl), fun _ _ => hunread⟩
  | requestPipelined requests hlen => exact requestPipelined_ended hc hx h
  | setMaxPayloadLen maxPayloadLen =>
    cases h
    exact ⟨hc.nextRequestId, nofun, nofun, fun _ _ => hc.unread⟩

/-- The condition on the calls of a run: the transport does not fail, and every response of a
pipelined call but the last to arrive can be decoded. -/
def Undisturbed (c : NativeClient) (_op : Operation) (x : Exchange) : Prop :=
  Steady x ∧ c.Decodable x

theorem aligned_of_reaches (h : Reaches Undisturbed c) : c.Aligned := by
  induction h with
  | connect => exact ⟨rfl, by decide⟩
  | call _ hx hok hexec ih =>
    have hended := exec_ended ih hx hexec
    exact ⟨hended.unread hok.2 (hended.io hok.1), hended.nextRequestId⟩

/-- **The client stays aligned** as long as pipelined responses can be decoded. -/
theorem calls_stay_aligned {op : Operation} {result : Except ClientError (List ResponsePayload)}
    (hc : Reaches Undisturbed c) (hx : c.Answered op x) (hdecodable : c.Decodable x)
    (h : c.exec op x = some (result, c')) (hio : result ≠ .error .io) :
    c'.stream.unread = [] ∧
      (∀ op' x' result' c'', c'.Answered op' x' → c'.exec op' x' = some (result', c'') →
        ∀ message, result' ≠ .error (.unexpectedResponse message)) ∧
      ∀ command payload x' result' c'', c'.Answered (.request command payload) x' → Steady x' →
        c'.request command payload x' = some (result', c'') →
        result' = answerOf c'.maxPayloadLen x'.answer.flatten := by
  have hended := exec_ended (aligned_of_reaches hc) hx h
  have hc' : c'.Aligned := ⟨hended.unread hdecodable hio, hended.nextRequestId⟩
  refine ⟨hc'.unread, fun op' x' result' c'' hx' h' => (exec_ended hc' hx' h').unexpected, ?_⟩
  intro command payload x' result' c'' hx' hsteady h'
  obtain ⟨-, ⟨-, hnot⟩ | ⟨hresult, -⟩⟩ := request_ended hc' hx' h'
  · exact absurd hsteady hnot
  · exact hresult

/-! ## A response that is too large -/

/-- The transport works and the server sends these responses. -/
def answering (responses : List ResponseFrame) : Exchange where
  writeFails := false
  answer := responses.map fun response => (encodeResponseFrame response).getD []
  failsAfter := none

theorem answers_encode {response : ResponseFrame}
    (h : (response.payload.status :: response.payload.body).length < 2 ^ 32) :
    Answers (header response) ((encodeResponseFrame response).getD []) := by
  rw [encodeResponseFrame_eq, if_pos h]
  exact ⟨_, h, rfl⟩

theorem answered_answering {op : Operation} {responses : List ResponseFrame}
    (hsent : responses.map header = sentBy c.nextRequestId op.requests)
    (hlt : ∀ r ∈ responses, (r.payload.status :: r.payload.body).length < 2 ^ 32) :
    c.Answered op (answering responses) := by
  refine fun _ => ⟨_, .refl _, ?_⟩
  rw [← hsent, answering, List.forall₂_map_left_iff, List.forall₂_map_right_iff]
  exact List.forall₂_same.mpr fun r hr => answers_encode (hlt r hr)

def pipelinedGets : Operation := .requestPipelined twoGets (by decide)

/-- A client that takes payloads of at most three bytes. -/
def limited : NativeClient := connect.setMaxPayloadLen 3

theorem reaches_limited {ok : NativeClient → Operation → Exchange → Prop}
    (h : ok connect (.setMaxPayloadLen 3) (answering [])) : Reaches ok limited :=
  .call .connect (answered_answering rfl (List.forall_mem_nil _)) h rfl

theorem calls_stay_aligned_limited :
    ∃ result c', limited.exec pipelinedGets
        (answering [⟨1, .get, .miss⟩, ⟨2, .get, .hit [7]⟩]) = some (result, c') ∧
      result ≠ .error .io ∧ c'.stream.unread = [] := by
  have hexec : limited.exec pipelinedGets (answering [⟨1, .get, .miss⟩, ⟨2, .get, .hit [7]⟩]) =
      some (.error (.decode (.frameTooLarge 6 3)), { limited with nextRequestId := 3 }) := by
    decide +kernel
  have hsteady : Undisturbed connect (.setMaxPayloadLen 3) (answering []) := ⟨⟨rfl, rfl⟩, nofun⟩
  refine ⟨_, _, hexec, nofun, (calls_stay_aligned (reaches_limited hsteady)
    (answered_answering rfl (by decide)) ?_ hexec nofun).1⟩
  intro b hb
  cases List.mem_singleton.mp hb
  exact ⟨⟨1, .get, .miss⟩, by decide +kernel⟩

/-- The first response is larger than the limit, the call ends there, and the next call reads the
second response. -/
theorem not_calls_stay_aligned_limited :
    Reaches (fun _ _ x => Steady x) limited ∧
      limited.Answered pipelinedGets (answering [⟨1, .get, .hit [7]⟩, ⟨2, .get, .miss⟩]) ∧
      ∃ c', limited.exec pipelinedGets (answering [⟨1, .get, .hit [7]⟩, ⟨2, .get, .miss⟩]) =
          some (.error (.decode (.frameTooLarge 6 3)), c') ∧
        c'.stream.unread ≠ [] ∧
        c'.Answered (.request .get (.get "default" [3])) (answering [⟨3, .get, .miss⟩]) ∧
        ∃ c'', c'.exec (.request .get (.get "default" [3])) (answering [⟨3, .get, .miss⟩]) =
          some (.error (.unexpectedResponse "response header mismatch"), c'') := by
  refine ⟨reaches_limited ⟨rfl, rfl⟩, answered_answering rfl (by decide),
    { limited with
      stream := ⟨(encodeResponseFrame ⟨2, .get, .miss⟩).getD [], none⟩
      nextRequestId := 3 },
    by decide +kernel, by decide +kernel, answered_answering rfl (by decide),
    { limited with
      stream := ⟨(encodeResponseFrame ⟨3, .get, .miss⟩).getD [], none⟩
      nextRequestId := 4 },
    by decide +kernel⟩

end NativeClient
end Cachebox
