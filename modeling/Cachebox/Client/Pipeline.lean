import Mathlib.Data.List.Iterate
import Mathlib.Data.List.Perm.Basic
import Cachebox.Client.Native
import Cachebox.Protocol.Request
import Cachebox.Protocol.Response
import Cachebox.Theory.Keyed

/-!
# Pipelined responses are matched by request id

The ids of a pipelined call are distinct and not zero. The matcher accepts the responses exactly if
they answer each request once, in any order, and then its result is the one for the responses in the
order of the requests.
-/

namespace Cachebox
open Protocol

/-! ## Request ids -/

namespace NativeClient

theorem advance_eq (s : UInt64) : advance s = if s + 1 ≤ 1 then 1 else s + 1 := rfl

theorem advance_toNat {s : UInt64} (hs : s ≠ 0) :
    (advance s).toNat = s.toNat % (2 ^ 64 - 1) + 1 := by
  have hlt := s.toNat_lt
  have hpos : s.toNat ≠ 0 := fun h => hs (UInt64.toNat_inj.mp h)
  have hsum : (s + 1).toNat = (s.toNat + 1) % 2 ^ 64 := by
    rw [UInt64.toNat_add]
    rfl
  rw [advance_eq]
  split
  next hle =>
    have hle : (s + 1).toNat ≤ 1 := hle
    have hmax : s.toNat = 2 ^ 64 - 1 := by omega
    rw [hmax]
    rfl
  next hle =>
    have hle : ¬(s + 1).toNat ≤ 1 := hle
    omega

theorem advance_ne_zero {s : UInt64} (hs : s ≠ 0) : advance s ≠ 0 := by
  intro h
  have hnat := advance_toNat hs
  rw [h] at hnat
  cases hnat

theorem iterate_advance_ne_zero {s : UInt64} (hs : s ≠ 0) (i : Nat) : advance^[i] s ≠ 0 := by
  induction i with
  | zero => exact hs
  | succ i ih =>
    rw [Function.iterate_succ_apply']
    exact advance_ne_zero ih

/-- The ids count through the nonzero words. -/
theorem iterate_advance_toNat {s : UInt64} (hs : s ≠ 0) (i : Nat) :
    (advance^[i] s).toNat = (s.toNat - 1 + i) % (2 ^ 64 - 1) + 1 := by
  have hlt := s.toNat_lt
  have hpos : s.toNat ≠ 0 := fun h => hs (UInt64.toNat_inj.mp h)
  induction i with
  | zero =>
    rw [Function.iterate_zero_apply]
    omega
  | succ i ih =>
    rw [Function.iterate_succ_apply', advance_toNat (iterate_advance_ne_zero hs i), ih]
    omega

/-- The ids of `n` requests. -/
def requestIds (s : UInt64) (n : Nat) : List UInt64 := List.iterate advance s n

theorem nodup_requestIds {s : UInt64} (hs : s ≠ 0) {n : Nat} (hn : n < 2 ^ 64) :
    (requestIds s n).Nodup := by
  rw [requestIds, ← List.range_map_iterate]
  refine List.Nodup.map_on (fun i hi j hj h => ?_) List.nodup_range
  rw [List.mem_range] at hi hj
  have hnat := congrArg UInt64.toNat h
  rw [iterate_advance_toNat hs, iterate_advance_toNat hs] at hnat
  omega

theorem requestIds_ne_zero {s : UInt64} (hs : s ≠ 0) {n : Nat} {id : UInt64}
    (h : id ∈ requestIds s n) : id ≠ 0 := by
  obtain ⟨i, -, rfl⟩ := List.mem_iterate.mp h
  exact iterate_advance_ne_zero hs i

/-- The frames of a pipelined call. -/
def requestFrames : UInt64 → List (Command × RequestPayload) → List RequestFrame
  | _, [] => []
  | requestId, (command, payload) :: requests =>
    ⟨requestId, command, payload⟩ :: requestFrames (advance requestId) requests

theorem map_requestId_requestFrames (s : UInt64) (requests : List (Command × RequestPayload)) :
    (requestFrames s requests).map (·.requestId) = requestIds s requests.length := by
  induction requests generalizing s with
  | nil => rfl
  | cons r requests ih =>
    rw [requestFrames, List.map_cons, ih]
    rfl

/-- What a response has to name: the id and the command of its request. -/
def header {α : Type} (f : Frame α) : UInt64 × Command := (f.requestId, f.command)

def sentBy (s : UInt64) (requests : List (Command × RequestPayload)) : List (UInt64 × Command) :=
  (requestFrames s requests).map header

theorem map_fst_sentBy (s : UInt64) (requests : List (Command × RequestPayload)) :
    (sentBy s requests).map Prod.fst = requestIds s requests.length := by
  rw [sentBy, List.map_map, ← map_requestId_requestFrames]
  rfl

theorem length_sentBy (s : UInt64) (requests : List (Command × RequestPayload)) :
    (sentBy s requests).length = requests.length := by
  have h := congrArg List.length (map_fst_sentBy s requests)
  rwa [List.length_map, requestIds, List.length_iterate] at h

/-- A request that can be encoded. -/
def Encodable (payload : RequestPayload) : Prop := (encodeRequestPayload payload []).length < 2 ^ 32

instance (payload : RequestPayload) : Decidable (Encodable payload) :=
  inferInstanceAs (Decidable (_ < _))

theorem encodable_iff {payload : RequestPayload} (id : UInt64) (command : Command) :
    Encodable payload ↔ ∃ bytes, encodeRequestFrame ⟨id, command, payload⟩ = some bytes := by
  rw [Encodable, encodeRequestPayload_eq, List.nil_append, encodeRequestFrame_eq]
  split
  next h => exact iff_of_true h ⟨_, rfl⟩
  next h => exact iff_of_false h nofun

/-- What the loop leaves: the requests are encoded one after the other, and for the id of each the
map holds its position and its command. -/
structure Outgoing.Numbered (out : Outgoing) (index : Nat)
    (requests : List (Command × RequestPayload)) (out' : Outgoing) : Prop where
  nextRequestId : out'.nextRequestId = advance^[requests.length] out.nextRequestId
  requestBuffer : ∃ frames,
    (requestFrames out.nextRequestId requests).mapM encodeRequestFrame = some frames ∧
      out'.requestBuffer = out.requestBuffer ++ frames.flatten
  expected : ∀ id e, out'.expected.lookup id = some e ↔
    (∃ i, e.index = index + i ∧ (sentBy out.nextRequestId requests)[i]? = some (id, e.command)) ∨
      id ∉ requestIds out.nextRequestId requests.length ∧ out.expected.lookup id = some e

/-- The first request is in the map, the others are numbered after it. -/
theorem lookup_insert_numbered {id₀ : UInt64} {ids : List UInt64} (hfirst : id₀ ∉ ids)
    (expected : HashMap UInt64 ExpectedResponse) (sent : List (UInt64 × Command)) (index : Nat)
    (command : Command) (id : UInt64) (e : ExpectedResponse) :
    ((∃ i, e.index = index + 1 + i ∧ sent[i]? = some (id, e.command)) ∨
        id ∉ ids ∧ (expected.insert id₀ ⟨index, command⟩).lookup id = some e) ↔
      (∃ i, e.index = index + i ∧ ((id₀, command) :: sent)[i]? = some (id, e.command)) ∨
        id ∉ id₀ :: ids ∧ expected.lookup id = some e := by
  rw [HashMap.lookup_insert']
  constructor
  · rintro (⟨i, hi, hsent⟩ | ⟨hid, he⟩)
    · exact .inl ⟨i + 1, by omega, hsent⟩
    · split at he
      next heq =>
        cases he
        exact .inl ⟨0, rfl, by rw [heq]; rfl⟩
      next hne => exact .inr ⟨List.not_mem_cons_of_ne_of_not_mem hne hid, he⟩
  · rintro (⟨_ | i, hi, hsent⟩ | ⟨hid, he⟩)
    · cases hsent
      refine .inr ⟨hfirst, ?_⟩
      rw [if_pos rfl]
      obtain ⟨_, _⟩ := e
      cases hi
      rfl
    · exact .inl ⟨i, by omega, hsent⟩
    · obtain ⟨hne, hid⟩ := not_or.mp (List.mem_cons.not.mp hid)
      exact .inr ⟨hid, by rw [if_neg hne, he]⟩

theorem Outgoing.addAll_eq {requests : List (Command × RequestPayload)}
    (hfits : ∀ r ∈ requests, Encodable r.2) (out : Outgoing) (index : Nat)
    (hnodup : (requestIds out.nextRequestId requests.length).Nodup) :
    ∃ out', out.addAll index requests = some out' ∧ out.Numbered index requests out' := by
  induction requests generalizing out index with
  | nil =>
    exact ⟨out, rfl, rfl, ⟨[], rfl, (List.append_nil _).symm⟩, fun id e => by
      simp [sentBy, requestFrames, requestIds]⟩
  | cons r requests ih =>
    obtain ⟨command, payload⟩ := r
    rw [List.forall_mem_cons] at hfits
    obtain ⟨frame, hframe⟩ := (encodable_iff out.nextRequestId command).mp hfits.1
    obtain ⟨hfirst, hnodup⟩ := List.nodup_cons.mp hnodup
    obtain ⟨out', hadd, hnext, ⟨frames, hframes, hbuffer⟩, hlookup⟩ := ih hfits.2
      ⟨advance out.nextRequestId, out.expected.insert out.nextRequestId ⟨index, command⟩,
        out.requestBuffer ++ frame⟩ (index + 1) hnodup
    refine ⟨out', ?_, ?_, ⟨frame :: frames, ?_, ?_⟩, fun id e => ?_⟩
    · rw [addAll, add, hframe]
      exact hadd
    · rw [hnext, List.length_cons, Function.iterate_succ_apply]
    · rw [requestFrames, List.mapM_cons, hframe, hframes]
      rfl
    · rw [hbuffer, List.flatten_cons, List.append_assoc]
    · exact (hlookup id e).trans (lookup_insert_numbered hfirst _ _ index command id e)

end NativeClient

/-! ## The matcher -/

open NativeClient

namespace PipelinedResponseMatcher

def asError : ResponsePayload → Option (ErrorCode × String)
  | .error code message => some (code, message)
  | _ => none

def asPayload : ResponsePayload → Option ResponsePayload
  | .error _ _ => none
  | payload => some payload

/-- The result of a pipelined call for the payloads in the order of the requests. -/
def collect (payloads : List ResponsePayload) : Except ClientError (List ResponsePayload) :=
  match payloads.findSome? asError with
  | some (code, message) => .error (.server code message)
  | none => .ok payloads

/-- The payload that answers a request, if its response is there. -/
def answerTo (responses : List ResponseFrame) (id : UInt64) : Option ResponsePayload :=
  (responses.find? fun r => r.requestId = id).map (·.payload)

/-- The slots of the requests, where `f` is what a response leaves in its slot. -/
def slots {β : Type} (f : ResponsePayload → Option β) (sent : List (UInt64 × Command))
    (responses : List ResponseFrame) : List (Option β) :=
  sent.map fun s => (answerTo responses s.1).bind f

/-- Each response is the only one to a request of the call. -/
structure AnswersOnce (sent : List (UInt64 × Command)) (responses : List ResponseFrame) :
    Prop where
  nodup : (responses.map (·.requestId)).Nodup
  header_mem : ∀ r ∈ responses, header r ∈ sent

/-- The matcher of a call that has sent `sent`, after the responses `done`. -/
structure Matched (sent : List (UInt64 × Command)) (done : List ResponseFrame)
    (m : PipelinedResponseMatcher) : Prop extends AnswersOnce sent done where
  expected : ∀ id e, m.expected.lookup id = some e ↔
    sent[e.index]? = some (id, e.command) ∧ id ∉ done.map (·.requestId)
  payloads : m.payloads = slots asPayload sent done
  errors : m.errors = slots asError sent done

variable {sent : List (UInt64 × Command)} {done responses : List ResponseFrame}
  {m : PipelinedResponseMatcher}

theorem AnswersOnce.of_append (h : AnswersOnce sent (responses ++ done)) :
    AnswersOnce sent done where
  nodup := (List.map_append ▸ h.nodup).of_append_right
  header_mem r hr := h.header_mem r (List.mem_append_right _ hr)

theorem answersOnce_cons {r : ResponseFrame} :
    AnswersOnce sent (r :: done) ↔
      AnswersOnce sent done ∧ header r ∈ sent ∧ r.requestId ∉ done.map (·.requestId) := by
  constructor
  · rintro ⟨hnodup, hmem⟩
    obtain ⟨hr, hnodup⟩ := List.nodup_cons.mp hnodup
    obtain ⟨hmem, hrest⟩ := List.forall_mem_cons.mp hmem
    exact ⟨⟨hnodup, hrest⟩, hmem, hr⟩
  · rintro ⟨⟨hnodup, hrest⟩, hmem, hr⟩
    exact ⟨List.nodup_cons.mpr ⟨hr, hnodup⟩, List.forall_mem_cons.mpr ⟨hmem, hrest⟩⟩

theorem answerTo_cons (r : ResponseFrame) (id : UInt64) :
    answerTo (r :: done) id = if id = r.requestId then some r.payload else answerTo done id := by
  rw [answerTo, List.find?_cons]
  split
  next h => rw [if_pos (of_decide_eq_true h).symm, Option.map_some]
  next h => rw [if_neg (Ne.symm (of_decide_eq_false h)), answerTo]

/-- Fills a slot, if there is something to fill it with. -/
def fill {β : Type} (slots : List (Option β)) (i : Nat) : Option β → List (Option β)
  | some v => slots.set i (some v)
  | none => slots

/-- A response that is new fills its own slot. -/
theorem fill_slots {β : Type} (f : ResponsePayload → Option β) (hsent : (sent.map Prod.fst).Nodup)
    {r : ResponseFrame} {i : Nat} {command : Command}
    (hi : sent[i]? = some (r.requestId, command)) (hnew : r.requestId ∉ done.map (·.requestId)) :
    fill (slots f sent done) i (f r.payload) = slots f sent (r :: done) := by
  cases hf : f r.payload with
  | none =>
    refine List.map_congr_left fun s _ => ?_
    rw [answerTo_cons]
    split
    next h =>
      have hnone : done.find? (fun q => q.requestId = s.1) = none :=
        List.find?_eq_none.mpr fun q hq hid =>
          hnew (List.mem_map.mpr ⟨q, hq, (of_decide_eq_true hid).trans h⟩)
      rw [answerTo, hnone, Option.bind_some, hf]
      rfl
    next => rfl
  | some v =>
    rw [fill, slots, Keyed.set_map _ hsent hi]
    refine List.map_congr_left fun s _ => ?_
    rw [answerTo_cons, ← hf]
    split <;> rfl

theorem erase_expected (h : Matched sent done m) (r : ResponseFrame) (id : UInt64)
    (e : ExpectedResponse) :
    (m.expected.erase r.requestId).lookup id = some e ↔
      sent[e.index]? = some (id, e.command) ∧ id ∉ (r :: done).map (·.requestId) := by
  rw [HashMap.lookup_erase', List.map_cons, List.mem_cons, not_or, and_left_comm, ← h.expected]
  split
  next heq => simp [heq]
  next hne => simp [hne]

theorem push_of_lookup {r : ResponseFrame} {e : ExpectedResponse}
    (hlookup : m.expected.lookup r.requestId = some e) (hcommand : r.command = e.command) :
    m.push r = .ok {
      expected := m.expected.erase r.requestId
      payloads := fill m.payloads e.index (asPayload r.payload)
      errors := fill m.errors e.index (asError r.payload) } := by
  rw [push, hlookup]
  simp only [hcommand, ne_eq, not_true_eq_false, if_false]
  cases r.payload <;> rfl

theorem push_of_command_ne {r : ResponseFrame} {e : ExpectedResponse}
    (hlookup : m.expected.lookup r.requestId = some e) (hcommand : r.command ≠ e.command) :
    m.push r = .error (.unexpectedResponse "response command mismatch") := by
  rw [push, hlookup]
  exact if_pos hcommand

theorem push_of_lookup_none {r : ResponseFrame} (hlookup : m.expected.lookup r.requestId = none) :
    m.push r = .error (.unexpectedResponse "unknown response request id") := by
  rw [push, hlookup]

/-- `push` takes a response exactly if it is the first to a request of the call. -/
theorem Matched.push (hsent : (sent.map Prod.fst).Nodup) (h : Matched sent done m)
    (r : ResponseFrame) :
    match m.push r with
    | .ok m' => Matched sent (r :: done) m'
    | .error e => (∃ message, e = .unexpectedResponse message) ∧ ¬AnswersOnce sent (r :: done) := by
  cases hlookup : m.expected.lookup r.requestId with
  | none =>
    rw [push_of_lookup_none hlookup]
    refine ⟨⟨_, rfl⟩, fun hr => ?_⟩
    obtain ⟨-, hmem, hnew⟩ := answersOnce_cons.mp hr
    obtain ⟨i, hi⟩ := List.mem_iff_getElem?.mp hmem
    have hsome := (h.expected r.requestId ⟨i, r.command⟩).mpr ⟨hi, hnew⟩
    rw [hlookup] at hsome
    cases hsome
  | some e =>
    obtain ⟨hi, hnew⟩ := (h.expected _ _).mp hlookup
    have hsentAs := List.mem_of_getElem? hi
    by_cases hcommand : r.command = e.command
    · rw [push_of_lookup hlookup hcommand]
      refine ⟨answersOnce_cons.mpr ⟨h.toAnswersOnce, ?_, hnew⟩, erase_expected h r, ?_, ?_⟩
      · rwa [header, hcommand]
      · rw [h.payloads]
        exact fill_slots asPayload hsent hi hnew
      · rw [h.errors]
        exact fill_slots asError hsent hi hnew
    · rw [push_of_command_ne hlookup hcommand]
      refine ⟨⟨_, rfl⟩, fun hr => hcommand ?_⟩
      obtain ⟨-, hmem, -⟩ := answersOnce_cons.mp hr
      exact (Prod.ext_iff.mp (List.inj_on_of_nodup_map hsent hmem hsentAs rfl)).2

def pushAll (m : PipelinedResponseMatcher) (responses : List ResponseFrame) :
    Except ClientError PipelinedResponseMatcher :=
  responses.foldlM push m

theorem pushAll_cons (r : ResponseFrame) :
    m.pushAll (r :: responses) = m.push r >>= fun m' => m'.pushAll responses :=
  List.foldlM_cons

/-- The loop takes the responses exactly if each is the only one to a request of the call. -/
theorem Matched.pushAll (hsent : (sent.map Prod.fst).Nodup) (h : Matched sent done m)
    (responses : List ResponseFrame) :
    match m.pushAll responses with
    | .ok m' => Matched sent (responses.reverse ++ done) m'
    | .error e =>
      (∃ message, e = .unexpectedResponse message) ∧
        ¬AnswersOnce sent (responses.reverse ++ done) := by
  induction responses generalizing done m with
  | nil => exact h
  | cons r responses ih =>
    have hpush := h.push hsent r
    rw [pushAll_cons, List.reverse_cons, List.append_assoc, List.singleton_append]
    cases hr : m.push r with
    | error e =>
      rw [hr] at hpush
      exact ⟨hpush.1, fun hanswers => hpush.2 hanswers.of_append⟩
    | ok m' =>
      rw [hr] at hpush
      exact ih hpush

theorem matched_new {n : Nat} {expected : HashMap UInt64 ExpectedResponse} (hn : sent.length = n)
    (h : ∀ id e, expected.lookup id = some e ↔ sent[e.index]? = some (id, e.command)) :
    Matched sent [] (new n expected) where
  nodup := .nil
  header_mem := nofun
  expected id e := by
    rw [new, h]
    simp
  payloads := by
    subst hn
    exact List.map_const'.symm
  errors := by
    subst hn
    exact List.map_const'.symm

/-- The responses in the order of the requests. -/
def InOrder (sent : List (UInt64 × Command)) (responses ordered : List ResponseFrame) : Prop :=
  ordered.Perm responses ∧ ordered.map header = sent

theorem slots_eq_of_inOrder {β : Type} (f : ResponsePayload → Option β)
    (hdone : (done.map (·.requestId)).Nodup) {ordered : List ResponseFrame}
    (h : InOrder sent done ordered) :
    slots f sent done = (ordered.map (·.payload)).map f := by
  rw [slots, ← h.2, List.map_map, List.map_map]
  refine List.map_congr_left fun r hr => ?_
  have hanswer : answerTo done r.requestId = some r.payload :=
    congrArg (Option.map Frame.payload) (Keyed.find?_eq_some hdone (h.1.subset hr))
  simp only [Function.comp_apply, header, hanswer, Option.bind_some]

theorem mapM_asPayload {payloads : List ResponsePayload} (h : payloads.findSome? asError = none) :
    ((payloads.map asPayload).mapM fun payload =>
      match payload with
      | some payload => Except.ok payload
      | none => .error (.unexpectedResponse "missing pipelined response payload")) =
      Except.ok (ε := ClientError) payloads := by
  induction payloads with
  | nil => rfl
  | cons payload payloads ih =>
    rw [List.findSome?_cons] at h
    cases payload with
    | error code message => cases h
    | _ =>
      rw [List.map_cons, List.mapM_cons, ih h]
      rfl

theorem reduceOption_eq_filterMap {α : Type} (l : List (Option α)) :
    l.reduceOption = l.filterMap id := rfl

/-- What `finish` returns does not depend on the order in which the responses came. -/
theorem Matched.finish (h : Matched sent done m) {ordered : List ResponseFrame}
    (hordered : InOrder sent done ordered) :
    m.finish = collect (ordered.map (·.payload)) := by
  rw [PipelinedResponseMatcher.finish, h.payloads, h.errors,
    slots_eq_of_inOrder asPayload h.nodup hordered, slots_eq_of_inOrder asError h.nodup hordered,
    collect, reduceOption_eq_filterMap, List.filterMap_map, List.head?_filterMap]
  simp only [Function.id_comp]
  cases hfind : (ordered.map (·.payload)).findSome? asError with
  | none => exact mapM_asPayload hfind
  | some e => rfl

theorem collect_ne_unexpectedResponse (payloads : List ResponsePayload) (message : String) :
    collect payloads ≠ .error (.unexpectedResponse message) := by
  rw [collect]
  split <;> nofun

theorem collect_ne_io (payloads : List ResponsePayload) : collect payloads ≠ .error .io := by
  rw [collect]
  split <;> nofun

theorem answersOnce_iff_perm (hsent : (sent.map Prod.fst).Nodup)
    (hlen : responses.length = sent.length) :
    AnswersOnce sent responses ↔ (responses.map header).Perm sent := by
  rw [Keyed.perm_iff hsent (by rw [List.length_map, hlen]), List.map_map]
  constructor
  · rintro ⟨hnodup, hmem⟩
    exact ⟨hnodup, fun s hs => List.forall_mem_map.mpr hmem s hs⟩
  · rintro ⟨hnodup, hsub⟩
    exact ⟨hnodup, fun r hr => hsub (List.mem_map_of_mem hr)⟩

/-- A list can be put in an order that is given by its image. -/
theorem exists_perm_map_eq {α β : Type} {f : α → β} {l : List α} {m : List β}
    (h : (l.map f).Perm m) : ∃ l' : List α, l'.Perm l ∧ l'.map f = m := by
  have himage : List.Forall₂ (fun b a => b = f a) (l.map f) l :=
    List.forall₂_map_left_iff.mpr (List.forall₂_same.mpr fun _ _ => rfl)
  obtain ⟨l', hl', hperm⟩ := List.perm_comp_forall₂ h.symm himage
  have heq := List.forall₂_map_right_iff.mpr hl'
  rw [List.forall₂_eq_eq_eq] at heq
  exact ⟨l', hperm, heq.symm⟩

theorem exists_inOrder (h : (responses.map header).Perm sent) :
    ∃ ordered, InOrder sent responses ordered :=
  exists_perm_map_eq h

/-- The matcher accepts as many responses as requests exactly if they are the responses to the
requests, and returns what they are in the order of the requests. -/
theorem pushAll_finish (hsent : (sent.map Prod.fst).Nodup) (h : Matched sent [] m)
    (hlen : responses.length = sent.length) :
    ((∀ message, (m.pushAll responses >>= finish) ≠ .error (.unexpectedResponse message)) ↔
        (responses.map header).Perm sent) ∧
      ∀ ordered, InOrder sent responses ordered →
        (m.pushAll responses >>= finish) = collect (ordered.map (·.payload)) := by
  have hperm := answersOnce_iff_perm hsent (List.length_reverse.trans hlen)
  rw [List.map_reverse, (List.reverse_perm _).congr_left] at hperm
  have hloop := h.pushAll hsent responses
  rw [List.append_nil, hperm] at hloop
  cases hpush : m.pushAll responses with
  | error e =>
    rw [hpush] at hloop
    obtain ⟨⟨message, rfl⟩, hnot⟩ := hloop
    refine ⟨⟨fun haccepted => absurd rfl (haccepted message), fun h => absurd h hnot⟩, ?_⟩
    intro ordered hordered
    exact absurd (hordered.2 ▸ (hordered.1.map header).symm) hnot
  | ok m' =>
    rw [hpush] at hloop
    have hfinish : ∀ ordered, InOrder sent responses ordered →
        m'.finish = collect (ordered.map (·.payload)) := fun ordered hordered =>
      hloop.finish ⟨hordered.1.trans (List.reverse_perm _).symm, hordered.2⟩
    refine ⟨⟨fun _ => hperm.mp hloop.toAnswersOnce, fun hanswers => ?_⟩, hfinish⟩
    obtain ⟨ordered, hordered⟩ := exists_inOrder hanswers
    intro message
    exact (hfinish ordered hordered).trans_ne (collect_ne_unexpectedResponse _ message)

end PipelinedResponseMatcher

/-! ## Reading responses -/

namespace NativeStream
variable {α β : Type} {failsAfter : Option Nat}

theorem bind_apply (a : StreamM α) (f : α → StreamM β) (s : NativeStream) :
    (a >>= f) s =
      match a s with
      | (.ok v, s) => f v s
      | (.error e, s) => (.error e, s) := by
  change ExceptT.bindCont f (a s).1 (a s).2 = _
  obtain ⟨r, s⟩ := a s
  cases r <;> rfl

/-- Reading has failed, which it does only where the transport fails. -/
def IoFailed (failsAfter : Option Nat) (r : Except ClientError α × NativeStream) : Prop :=
  failsAfter.isSome ∧ r.1 = .error .io

theorem IoFailed.bind {a : StreamM α} {s : NativeStream} (h : IoFailed failsAfter (a s))
    (f : α → StreamM β) : IoFailed failsAfter ((a >>= f) s) := by
  obtain ⟨hsome, herror⟩ := h
  rw [bind_apply]
  cases hr : a s with
  | mk r s' =>
    rw [hr] at herror
    cases herror
    exact ⟨hsome, rfl⟩

theorem bind_of_ok {a : StreamM α} {s s' : NativeStream} {v : α} (h : a s = (.ok v, s'))
    (f : α → StreamM β) : (a >>= f) s = f v s' := by
  rw [bind_apply, h]

theorem bind_of_error {a : StreamM α} {s s' : NativeStream} {e : ClientError}
    (h : a s = (.error e, s')) (f : α → StreamM β) : (a >>= f) s = (.error e, s') := by
  rw [bind_apply, h]

theorem readExact_append (b rest : Bytes) (failsAfter : Option Nat) :
    IoFailed failsAfter (readExact b.length ⟨b ++ rest, failsAfter⟩) ∨
      ∃ failsAfter', failsAfter'.isSome = failsAfter.isSome ∧
        readExact b.length ⟨b ++ rest, failsAfter⟩ = (.ok b, ⟨rest, failsAfter'⟩) := by
  rw [readExact]
  by_cases hfails : failsAfter.any (· < b.length) = true
  · left
    rw [hfails, Bool.true_or, if_pos rfl]
    exact ⟨Option.isSome_of_any hfails, rfl⟩
  · refine .inr ⟨failsAfter.map (· - b.length), Option.isSome_map, ?_⟩
    have hlen : ¬(b ++ rest).length < b.length := by
      rw [List.length_append]
      omega
    rw [Bool.eq_false_of_not_eq_true hfails, decide_eq_false hlen, Bool.or_self, if_neg nofun,
      List.take_left, List.drop_left]

/-- What the client makes of the bytes of a frame. -/
def decoded (maxPayloadLen : Nat) (b : Bytes) : Except ClientError ResponseFrame :=
  (decodeResponseFrame b maxPayloadLen).mapError .decode

/-- A whole frame is read before any of it is checked. -/
theorem readResponseFrame_append {b : Bytes} (hb : b.length = headerLen + payloadLen b)
    (rest : Bytes) (failsAfter : Option Nat) (maxPayloadLen : Nat) :
    IoFailed failsAfter (readResponseFrame maxPayloadLen ⟨b ++ rest, failsAfter⟩) ∨
      ∃ failsAfter', failsAfter'.isSome = failsAfter.isSome ∧
        readResponseFrame maxPayloadLen ⟨b ++ rest, failsAfter⟩ =
          (decoded maxPayloadLen b, ⟨rest, failsAfter'⟩) := by
  obtain ⟨hd, payload, rfl, hhd, hlen⟩ := exists_header_payload hb
  rw [List.append_assoc, readResponseFrame, ← hhd]
  rcases readExact_append hd (payload ++ rest) failsAfter with hfailed | ⟨fails₁, hsome₁, hhead⟩
  · exact .inl (hfailed.bind _)
  rw [bind_of_ok hhead, hlen]
  rcases readExact_append payload rest fails₁ with hfailed | ⟨fails₂, hsome₂, hpayload⟩
  · exact .inl (IoFailed.bind ⟨hsome₁ ▸ hfailed.1, hfailed.2⟩ _)
  · refine .inr ⟨fails₂, hsome₂.trans hsome₁, ?_⟩
    rw [bind_of_ok hpayload, decoded]
    cases decodeResponseFrame (hd ++ payload) maxPayloadLen <;> rfl

end NativeStream

namespace PipelinedResponseMatcher
open NativeStream

/-- The bytes of one response. -/
def Carries (maxPayloadLen : Nat) (b : Bytes) (response : ResponseFrame) : Prop :=
  b.length = headerLen + payloadLen b ∧ decodeResponseFrame b maxPayloadLen = .ok response

/-- Responses that have arrived are pushed one after the other. -/
theorem receive_append {maxPayloadLen : Nat} {frames : List Bytes} {responses : List ResponseFrame}
    (h : List.Forall₂ (Carries maxPayloadLen) frames responses) (rest : Bytes)
    (failsAfter : Option Nat) (n : Nat) (m : PipelinedResponseMatcher) :
    IoFailed failsAfter
        (m.receive maxPayloadLen (frames.length + n) ⟨frames.flatten ++ rest, failsAfter⟩) ∨
      match m.pushAll responses with
      | .ok m' => ∃ failsAfter', failsAfter'.isSome = failsAfter.isSome ∧
        m.receive maxPayloadLen (frames.length + n) ⟨frames.flatten ++ rest, failsAfter⟩ =
          m'.receive maxPayloadLen n ⟨rest, failsAfter'⟩
      | .error e =>
        (m.receive maxPayloadLen (frames.length + n) ⟨frames.flatten ++ rest, failsAfter⟩).1 =
          .error e := by
  induction h generalizing failsAfter m with
  | nil =>
    rw [List.length_nil, Nat.zero_add]
    exact .inr ⟨failsAfter, rfl, rfl⟩
  | @cons b response frames responses hb _ ih =>
    rw [List.length_cons, Nat.add_right_comm, receive, List.flatten_cons, List.append_assoc]
    rcases readResponseFrame_append hb.1 (frames.flatten ++ rest) failsAfter maxPayloadLen with
      hfailed | ⟨failsAfter', hsome, hread⟩
    · exact .inl (hfailed.bind _)
    rw [decoded, hb.2] at hread
    rw [bind_of_ok hread, pushAll_cons]
    cases m.push response with
    | error e => exact .inr rfl
    | ok m' =>
      have hrest := ih failsAfter' m'
      rw [IoFailed, hsome] at hrest
      exact hrest

end PipelinedResponseMatcher

/-! ## Pipelined calls -/

namespace NativeClient
open NativeStream PipelinedResponseMatcher

/-- What a pipelined call does on the stream. -/
def exchangeAll (m : PipelinedResponseMatcher) (maxPayloadLen n : Nat) (x : Exchange) :
    StreamM (List ResponsePayload) := do
  writeAll x
  let matcher ← m.receive maxPayloadLen n
  match matcher.finish with
  | .ok payloads => return payloads
  | .error e => throw e

variable {c : NativeClient} {requests : List (Command × RequestPayload)} {x : Exchange}

theorem requestPipelined_eq (hid : c.nextRequestId ≠ 0) (hne : requests ≠ [])
    (hlt : requests.length < 2 ^ 64) (hfits : ∀ r ∈ requests, Encodable r.2) (x : Exchange) :
    ∃ out, Outgoing.addAll ⟨c.nextRequestId, ∅, []⟩ 0 requests = some out ∧
      Outgoing.Numbered ⟨c.nextRequestId, ∅, []⟩ 0 requests out ∧
      Matched (sentBy c.nextRequestId requests) [] (.new requests.length out.expected) ∧
      c.requestPipelined requests x = some (perform { c with nextRequestId := out.nextRequestId }
        (exchangeAll (.new requests.length out.expected) c.maxPayloadLen requests.length x)) := by
  have hnodup := nodup_requestIds hid hlt
  obtain ⟨out, hadd, hout⟩ := Outgoing.addAll_eq hfits ⟨c.nextRequestId, ∅, []⟩ 0 hnodup
  refine ⟨out, hadd, hout, matched_new (length_sentBy ..) fun id e => ?_, ?_⟩
  · rw [hout.expected]
    simp
  · rw [requestPipelined, if_neg (List.length_eq_zero_iff.not.mpr hne), hadd]
    rfl

theorem exchangeAll_eq (m : PipelinedResponseMatcher) (maxPayloadLen n : Nat) (s : NativeStream)
    (hwrite : x.writeFails = false) {r : Except ClientError PipelinedResponseMatcher}
    {s' : NativeStream}
    (h : m.receive maxPayloadLen n ⟨s.unread ++ x.answer.flatten, x.failsAfter⟩ = (r, s')) :
    exchangeAll m maxPayloadLen n x s = (r >>= finish, s') := by
  have hsent : writeAll x s = (.ok (), ⟨s.unread ++ x.answer.flatten, x.failsAfter⟩) := by
    rw [writeAll, hwrite]
    rfl
  rw [exchangeAll, bind_of_ok hsent]
  cases r with
  | error e => rw [bind_of_error h]; rfl
  | ok m' =>
    rw [bind_of_ok h]
    change _ = (m'.finish, s')
    cases m'.finish <;> rfl

/-- The responses that the client reads next. -/
def Delivers (maxPayloadLen : Nat) (bytes : Bytes) (responses : List ResponseFrame) : Prop :=
  ∃ frames rest, bytes = frames.flatten ++ rest ∧
    List.Forall₂ (Carries maxPayloadLen) frames responses

/-- On a connection that does not fail, the call is what the matcher makes of the responses. -/
theorem exchangeAll_of_delivers {m : PipelinedResponseMatcher} {maxPayloadLen : Nat}
    {s : NativeStream} {responses : List ResponseFrame} (hwrite : x.writeFails = false)
    (hread : x.failsAfter = none)
    (h : Delivers maxPayloadLen (s.unread ++ x.answer.flatten) responses) :
    (exchangeAll m maxPayloadLen responses.length x s).1 = m.pushAll responses >>= finish := by
  obtain ⟨frames, rest, hbytes, hframes⟩ := h
  have hreceive := receive_append hframes rest none 0 m
  rw [Nat.add_zero, hframes.length_eq, ← hbytes, ← hread] at hreceive
  rcases hr : m.receive maxPayloadLen responses.length
    ⟨s.unread ++ x.answer.flatten, x.failsAfter⟩ with ⟨r, s'⟩
  rw [exchangeAll_eq m maxPayloadLen responses.length s hwrite hr]
  rcases hreceive with ⟨hsome, -⟩ | hreceive
  · rw [hread] at hsome
    cases hsome
  cases hpush : m.pushAll responses with
  | ok m' =>
    rw [hpush] at hreceive
    obtain ⟨failsAfter', -, hreceive⟩ := hreceive
    rw [hr] at hreceive
    cases hreceive
    rfl
  | error e =>
    rw [hpush, hr] at hreceive
    cases hreceive
    rfl

/-- **Pipelined responses are matched in any order.** -/
theorem requestPipelined_matches_responses (c : NativeClient) (hid : 1 ≤ c.nextRequestId)
    (requests : List (Command × RequestPayload)) (hpos : 1 ≤ requests.length)
    (hlt : requests.length < 2 ^ 64 - 1) (hfits : ∀ r ∈ requests, Encodable r.2) (x : Exchange)
    (hwrite : x.writeFails = false) (hread : x.failsAfter = none)
    (responses : List ResponseFrame) (hcount : responses.length = requests.length)
    (hdelivers : Delivers c.maxPayloadLen (c.stream.unread ++ x.answer.flatten) responses) :
    let frames := requestFrames c.nextRequestId requests
    let sent := frames.map header
    (frames.map (·.requestId)).Nodup ∧ (∀ f ∈ frames, f.requestId ≠ 0) ∧
      ∃ out bytes result c',
        Outgoing.addAll ⟨c.nextRequestId, ∅, []⟩ 0 requests = some out ∧
        frames.mapM encodeRequestFrame = some bytes ∧ out.requestBuffer = bytes.flatten ∧
        c.requestPipelined requests x = some (result, c') ∧
        ((∀ message, result ≠ .error (.unexpectedResponse message)) ↔
          (responses.map header).Perm sent) ∧
        ((responses.map header).Perm sent → ∃ ordered, InOrder sent responses ordered) ∧
        ∀ ordered, InOrder sent responses ordered →
          result = collect (ordered.map (·.payload)) := by
  intro frames sent
  have hid : c.nextRequestId ≠ 0 := fun h => absurd (h ▸ hid) (by decide)
  have hids : frames.map (·.requestId) = requestIds c.nextRequestId requests.length :=
    map_requestId_requestFrames ..
  have hnodup := nodup_requestIds hid (n := requests.length) (by omega)
  obtain ⟨out, hadd, hout, hnew, hcall⟩ := requestPipelined_eq hid
    (List.ne_nil_of_length_pos hpos) (by omega) hfits x
  obtain ⟨bytes, hbytes, hbuffer⟩ := hout.requestBuffer
  have hresult := exchangeAll_of_delivers (m := .new requests.length out.expected) hwrite hread
    hdelivers
  obtain ⟨haccepted, hordered⟩ := pushAll_finish (map_fst_sentBy .. ▸ hnodup) hnew
    (hcount.trans (length_sentBy ..).symm)
  rw [← hresult, hcount] at haccepted hordered
  refine ⟨hids ▸ hnodup, fun f hf => ?_, out, bytes, _, _, hadd, hbytes, hbuffer, hcall,
    haccepted, exists_inOrder, hordered⟩
  exact requestIds_ne_zero hid (hids ▸ List.mem_map_of_mem hf)

def wrapping : NativeClient := { connect with nextRequestId := 0xffffffffffffffff }

def twoGets : List (Command × RequestPayload) :=
  [(.get, .get "default" [1]), (.get, .get "default" [2])]

def hitFirst : ResponseFrame := ⟨0xffffffffffffffff, .get, .hit [7]⟩

def missSecond : ResponseFrame := ⟨1, .get, .miss⟩

/-- The second response arrives first. -/
def swapped : Exchange where
  writeFails := false
  answer := [missSecond, hitFirst].map fun response => (encodeResponseFrame response).getD []
  failsAfter := none

theorem delivers_swapped :
    Delivers wrapping.maxPayloadLen (wrapping.stream.unread ++ swapped.answer.flatten)
      [missSecond, hitFirst] := by
  refine ⟨swapped.answer, [], (List.append_nil _).symm, ?_⟩
  exact .cons ⟨by decide +kernel, by decide +kernel⟩
    (.cons ⟨by decide +kernel, by decide +kernel⟩ .nil)

theorem requestPipelined_matches_swapped :
    ∃ c', wrapping.requestPipelined twoGets swapped = some (.ok [.hit [7], .miss], c') := by
  obtain ⟨-, -, -, -, result, c', -, -, -, hcall, -, -, hordered⟩ :=
    requestPipelined_matches_responses wrapping (by decide) twoGets (by decide) (by decide)
      (by decide +kernel) swapped rfl rfl [missSecond, hitFirst] rfl delivers_swapped
  have hresult := hordered [hitFirst, missSecond] ⟨.swap .., rfl⟩
  exact ⟨c', by rw [hcall, hresult]; rfl⟩

end NativeClient
end Cachebox
