import Cachebox.Client.GetOrSet
import Cachebox.Engine.Contents
import Cachebox.Python.ArgumentKeys

/-!
# Memoized functions (`Cachebox.memoize`, `Cachebox._get_or_set_keyed`)

The wrapper of a memoized function builds a key from the function and its arguments and asks the
cache for it. With stampede protection it goes through the loop of `Cachebox.Client.GetOrSet`;
without, it reads the key, and if nothing is there it calls the function and stores what it returns.

Any number of callers do so at the same time, each with its own function, arguments, options and
cache object, against one engine that others use as well. A value that a call returns is one that
the function has returned for the same arguments, to this call or to another one that has stored it.
-/

namespace Cachebox.Client
open Keys (Arg Str Version JsonDumps)

/-! ## The calls -/

/-- A `DogpilePolicy`, with the switch. -/
structure Dogpile extends DogpilePolicy where
  enabled : Bool := true
  deriving DecidableEq, Repr

/-- The argument `dogpile` of a call. -/
inductive DogpileOverride where
  | none
  | bool (b : Bool)
  | policy (policy : Dogpile)
  deriving DecidableEq, Repr

/-- `_resolve_dogpile`. -/
def resolveDogpile (default : Dogpile) : DogpileOverride → Dogpile
  | .none => default
  | .bool true => default
  | .bool false => { enabled := false }
  | .policy policy => policy

/-- A `Cachebox`, apart from its client. -/
structure Cache (V : Type) where
  ns : String
  serializer : Serializer V
  keys : Keys.Config
  dogpile : Dogpile

/-- A call of a memoized function: the cache, the options that `memoize` was given, the function,
what `key_func` returns if there is one, and the arguments as `Signature.bind` binds them. -/
structure Memoized (V φ : Type) where
  cache : Cache V
  ttlMs : Option UInt64
  staleTtlMs : Option UInt64
  tags : List String
  cost : Option UInt64
  serializer : Option (Serializer V)
  ns : Option String
  keyPrefix : Option Str
  version : Option Version
  dogpile : DogpileOverride
  function : Keys.Function
  keyFunc : Option (Arg φ)
  bound : Except Str (List (Str × Arg φ))

variable {V φ : Type}

namespace Memoized

def key (J : JsonDumps φ) (call : Memoized V φ) : Except Keys.KeyError Bytes :=
  Keys.memoizeKey J call.cache.keys call.keyPrefix call.version call.function call.keyFunc
    call.bound

/-- `namespace or self.namespace`: an empty namespace counts as none. -/
def resolvedNamespace (call : Memoized V φ) : String :=
  match call.ns with
  | some ns => if ns = "" then call.cache.ns else ns
  | none => call.cache.ns

/-- `serializer or self.serializer`. -/
def selected (call : Memoized V φ) : Serializer V := call.serializer.getD call.cache.serializer

def policy (call : Memoized V φ) : Dogpile := resolveDogpile call.cache.dogpile call.dogpile

/-- What `_get_or_set_keyed` hands on to `_get_or_set_keyed_with_lease`. -/
def getOrSet (call : Memoized V φ) : GetOrSet V where
  serializer := call.selected
  policy := call.policy.toDogpilePolicy
  ttlMs := call.ttlMs
  staleTtlMs := call.staleTtlMs
  tags := call.tags
  cost := call.cost

/-- The request of `_set_keyed`. -/
def putCommand (call : Memoized V φ) (key encoded : Bytes) : PutCommand where
  ns := call.resolvedNamespace
  key := key
  value := encoded
  ttl := lifetime call.ttlMs
  staleTtl := lifetime call.staleTtlMs
  tags := call.tags
  cost := call.cost

end Memoized

/-- What a call raises. -/
inductive MemoError where
  | key (error : Keys.KeyError)
  | cache (error : CacheError)
  | put (error : PutError)
  deriving DecidableEq

/-- Where a caller is. -/
inductive Task (V φ : Type) where
  | idle
  /-- In `_get_or_set_keyed_with_lease`. -/
  | leased (call : Memoized V φ) (key : Bytes) (caller : Caller V)
  /-- Without stampede protection: about to read the key. -/
  | getting (call : Memoized V φ) (key : Bytes)
  /-- About to call the function. -/
  | generating (call : Memoized V φ) (key : Bytes)
  /-- About to encode the value and to store it. -/
  | storing (call : Memoized V φ) (key : Bytes) (value : V)

/-- An engine and the callers of memoized functions. -/
structure Memo (V φ : Type) where
  engine : Engine
  tasks : Nat → Task V φ

namespace Memo

/-- The steps of a caller, and an operation of somebody else. A step that reads the monotonic clock
carries the reading, and a step that calls the function carries what it returns, or `none` if it
raises an exception. -/
inductive Action (V φ : Type) where
  | call (caller : Nat) (call : Memoized V φ) (nowMs : Int)
  | startLease (caller : Nat) (nowMs : Int)
  | get (caller : Nat)
  | function (caller : Nat) (result : Option V)
  | completeLease (caller : Nat) (o : IterOrder)
  | put (caller : Nat) (o : IterOrder)
  | other (op : Op)

/-- A call that has ended, with its value or what it raised. -/
abbrev Outcome (V φ : Type) := Option (Memoized V φ × Except MemoError V)

def setTask (s : Memo V φ) (caller : Nat) (task : Task V φ) : Memo V φ :=
  { s with tasks := Function.update s.tasks caller task }

/-- The call ends. -/
def finish (s : Memo V φ) (caller : Nat) (call : Memoized V φ) (result : Except MemoError V) :
    Outcome V φ × Memo V φ :=
  (some (call, result), s.setTask caller .idle)

/-- The loop of `_get_or_set_keyed_with_lease` has come to `next`. -/
def goOn (s : Memo V φ) (caller : Nat) (call : Memoized V φ) (key : Bytes) :
    Caller V → Outcome V φ × Memo V φ
  | .returned value => s.finish caller call (.ok value)
  | .raised error => s.finish caller call (.error (.cache error))
  | next => (none, s.setTask caller (.leased call key next))

section
variable (J : JsonDumps φ)

/-- The wrapper of the memoized function, up to its first request. -/
def begin (s : Memo V φ) (caller : Nat) (call : Memoized V φ) (nowMs : Int) :
    Outcome V φ × Memo V φ :=
  match call.key J with
  | .error error => s.finish caller call (.error (.key error))
  | .ok key =>
    if call.policy.enabled then
      (none, s.setTask caller (.leased call key (.waiting (nowMs + call.policy.waitTimeoutMs))))
    else (none, s.setTask caller (.getting call key))

/-- `return selected.decode(value)`. -/
def returnDecoded (s : Memo V φ) (caller : Nat) (call : Memoized V φ) (value : Bytes) :
    Outcome V φ × Memo V φ :=
  match call.selected.decode value with
  | some value => s.finish caller call (.ok value)
  | none => s.finish caller call (.error (.cache .decode))

/-- `_get_keyed`, and the function is called if nothing is there. -/
def get (s : Memo V φ) (caller : Nat) (call : Memoized V φ) (key : Bytes) :
    Outcome V φ × Memo V φ :=
  let (outcome, engine) := s.engine.get call.resolvedNamespace key
  let s := { s with engine }
  match outcome with
  | .miss => (none, s.setTask caller (.generating call key))
  | .hit value | .stale value => s.returnDecoded caller call value

/-- `_set_keyed`, and the value is returned. -/
def put (s : Memo V φ) (caller : Nat) (call : Memoized V φ) (key : Bytes) (value : V)
    (o : IterOrder) : Outcome V φ × Memo V φ :=
  match call.selected.encode value with
  | none => s.finish caller call (.error (.cache .encode))
  | some encoded =>
    match s.engine.put o (call.putCommand key encoded) with
    | (.ok _, engine) => { s with engine }.finish caller call (.ok value)
    | (.error error, engine) => { s with engine }.finish caller call (.error (.put error))

/-- The step of a caller that is somewhere else does nothing. -/
def step (s : Memo V φ) : Action V φ → Outcome V φ × Memo V φ
  | .call caller call nowMs =>
    match s.tasks caller with
    | .idle => s.begin J caller call nowMs
    | _ => (none, s)
  | .startLease caller nowMs =>
    match s.tasks caller with
    | .leased call key (.waiting deadline) =>
      let (outcome, engine) := s.engine.startLease call.resolvedNamespace key call.policy.leaseTtlMs
      { s with engine }.goOn caller call key
        (call.getOrSet.afterStartLease deadline nowMs outcome)
    | _ => (none, s)
  | .get caller =>
    match s.tasks caller with
    | .getting call key => s.get caller call key
    | _ => (none, s)
  | .function caller result =>
    match s.tasks caller with
    | .leased call key (.generating leaseToken staleValue) =>
      s.goOn caller call key (call.getOrSet.afterFactory leaseToken staleValue result)
    | .generating call key =>
      match result with
      | some value => (none, s.setTask caller (.storing call key value))
      | none => s.finish caller call (.error (.cache .factory))
    | _ => (none, s)
  | .completeLease caller o =>
    match s.tasks caller with
    | .leased call key (.completing leaseToken value) =>
      let (next, engine) := call.getOrSet.complete call.resolvedNamespace key leaseToken value o
        s.engine
      { s with engine }.goOn caller call key next
    | _ => (none, s)
  | .put caller o =>
    match s.tasks caller with
    | .storing call key value => s.put caller call key value o
    | _ => (none, s)
  | .other op => (none, { s with engine := (s.engine.exec op).2 })

end

abbrev Event (V φ : Type) := Machine.Event (Memo V φ) (Action V φ) (Outcome V φ)

/-- The call whose function returns in the event, with what it returns. -/
def Event.result (ev : Event V φ) : Option (Memoized V φ × V) :=
  match ev.action with
  | .function caller (some value) =>
    match ev.before.tasks caller with
    | .leased call _ (.generating _ _) => some (call, value)
    | .generating call _ => some (call, value)
    | _ => none
  | _ => none

/-! ## What is known of stored values -/

section
variable (J : JsonDumps φ) (ns : String) (results : List (Memoized V φ × V))

/-- The bytes are the encoding of what the function of a call with this key has returned. -/
def Stored (key bytes : Bytes) : Prop :=
  ∃ call value, (call, value) ∈ results ∧ call.resolvedNamespace = ns ∧ call.key J = .ok key ∧
    call.selected.encode value = some bytes

/-- The value is what the function has returned for the call, or it is decoded from what a call with
the same key has stored. -/
def Rightful (call : Memoized V φ) (value : V) : Prop :=
  (call, value) ∈ results ∨ (call.resolvedNamespace = ns → ∃ key bytes, call.key J = .ok key ∧
    Stored J ns results key bytes ∧ call.selected.decode bytes = some value)

/-- What is known of a caller in the loop of `_get_or_set_keyed_with_lease`. -/
def CallerOk (call : Memoized V φ) (key : Bytes) : Caller V → Prop
  | .generating _ (some stale) => call.resolvedNamespace = ns → Stored J ns results key stale
  | .completing _ value => (call, value) ∈ results
  | .returned value => Rightful J ns results call value
  | _ => True

variable (Q : Memoized V φ → Prop)

/-- The call is under way, with this key. -/
structure Made (call : Memoized V φ) (key : Bytes) : Prop where
  key : call.key J = .ok key
  called : call.resolvedNamespace = ns → Q call

def TaskOk : Task V φ → Prop
  | .idle => True
  | .leased call key caller => Made J ns Q call key ∧ CallerOk J ns results call key caller
  | .getting call key | .generating call key => Made J ns Q call key
  | .storing call key value => Made J ns Q call key ∧ (call, value) ∈ results

/-- The invariant of a run in which the functions have returned `results` so far. -/
structure Inv (s : Memo V φ) : Prop where
  engine : s.engine.Inv
  stored : s.engine.Contains (Stored J ns results) ns
  tasks : ∀ caller, TaskOk J ns results Q (s.tasks caller)
  made : ∀ call value, (call, value) ∈ results → ∃ key, Made J ns Q call key

end

section
variable {J : JsonDumps φ} {ns : String} {results : List (Memoized V φ × V)}
  {Q : Memoized V φ → Prop} {s : Memo V φ} {caller : Nat} {call : Memoized V φ} {key : Bytes}

theorem Stored.cons {bytes : Bytes} (h : Stored J ns results key bytes)
    (result : Memoized V φ × V) : Stored J ns (result :: results) key bytes := by
  obtain ⟨call, value, hmem, hrest⟩ := h
  exact ⟨call, value, List.mem_cons_of_mem result hmem, hrest⟩

theorem Rightful.cons {value : V} (h : Rightful J ns results call value)
    (result : Memoized V φ × V) : Rightful J ns (result :: results) call value := by
  obtain hmem | hstored := h
  · exact .inl (List.mem_cons_of_mem result hmem)
  · refine .inr fun hns => ?_
    obtain ⟨key, bytes, hkey, hbytes, hdecode⟩ := hstored hns
    exact ⟨key, bytes, hkey, hbytes.cons result, hdecode⟩

theorem CallerOk.cons {next : Caller V} (h : CallerOk J ns results call key next)
    (result : Memoized V φ × V) : CallerOk J ns (result :: results) call key next := by
  cases next with
  | generating leaseToken staleValue =>
    cases staleValue with
    | none => trivial
    | some stale => exact fun hns => (h hns).cons result
  | completing leaseToken value => exact List.mem_cons_of_mem result h
  | returned value => exact Rightful.cons h result
  | idle | waiting | raised => trivial

theorem TaskOk.cons {task : Task V φ} (h : TaskOk J ns results Q task)
    (result : Memoized V φ × V) : TaskOk J ns (result :: results) Q task := by
  cases task with
  | idle => trivial
  | leased call key next => exact ⟨h.1, h.2.cons result⟩
  | getting | generating => exact h
  | storing call key value => exact ⟨h.1, List.mem_cons_of_mem result h.2⟩

/-- A function returns. -/
theorem Inv.cons (h : Inv J ns results Q s) (hmade : Made J ns Q call key) (value : V) :
    Inv J ns ((call, value) :: results) Q s := by
  refine ⟨h.engine, h.stored.mono fun _ _ hstored => hstored.cons _,
    fun caller => (h.tasks caller).cons _, fun call' value' hmem => ?_⟩
  cases hmem with
  | head => exact ⟨key, hmade⟩
  | tail _ hmem => exact h.made call' value' hmem

theorem Inv.setTask (h : Inv J ns results Q s) (caller : Nat) (task : Task V φ)
    (htask : TaskOk J ns results Q task) : Inv J ns results Q (s.setTask caller task) := by
  refine ⟨h.engine, h.stored, fun caller' => ?_, h.made⟩
  change TaskOk J ns results Q (Function.update s.tasks caller task caller')
  rw [Function.update_apply]
  split
  · exact htask
  · exact h.tasks caller'

/-- An operation on the engine that stores only what it may. -/
theorem Inv.exec (h : Inv J ns results Q s) (op : Op)
    (hstores : ∀ key value, op.stores ns = some (key, value) → Stored J ns results key value) :
    Inv J ns results Q { s with engine := (s.engine.exec op).2 } :=
  ⟨h.engine.exec op, h.stored.exec h.engine op hstores, h.tasks, h.made⟩

/-- What a read of the key shows has been stored. -/
theorem Inv.stored_of_sound (h : Inv J ns results Q s) {e' : Engine} {nowMs : UInt64} {stale : Bool}
    {value : Bytes} (hns : call.resolvedNamespace = ns)
    (hsound : Read.Sound ⟨⟨call.resolvedNamespace, key⟩, nowMs, .value stale value⟩ s.engine e') :
    Stored J ns results key value := by
  rw [hns] at hsound
  exact h.stored.of_sound hsound

/-! ## The steps -/

/-- What a step leaves, with the results so far, and what it returns to a caller. -/
structure Steps (J : JsonDumps φ) (ns : String) (results : List (Memoized V φ × V))
    (Q : Memoized V φ → Prop) (results' : List (Memoized V φ × V)) (r : Outcome V φ × Memo V φ) :
    Prop where
  inv : Inv J ns results' Q r.2
  called : ∀ call result, r.1 = some (call, result) → call.resolvedNamespace = ns → Q call
  rightful : ∀ call value, r.1 = some (call, .ok value) → Rightful J ns results call value

theorem Inv.finish_error (h : Inv J ns results Q s) (hcalled : call.resolvedNamespace = ns → Q call)
    (caller : Nat) (error : MemoError) :
    Steps J ns results Q results (s.finish caller call (.error error)) := by
  refine ⟨h.setTask caller .idle trivial, fun call' result heq => ?_, fun call' value heq => ?_⟩
  · cases heq
    exact hcalled
  · cases heq

theorem Inv.finish_ok (h : Inv J ns results Q s) (hcalled : call.resolvedNamespace = ns → Q call)
    {value : V} (hvalue : Rightful J ns results call value) (caller : Nat) :
    Steps J ns results Q results (s.finish caller call (.ok value)) := by
  refine ⟨h.setTask caller .idle trivial, fun call' result heq => ?_, fun call' value' heq => ?_⟩
  · cases heq
    exact hcalled
  · cases heq
    exact hvalue

theorem Inv.silent {results' : List (Memoized V φ × V)} (h : Inv J ns results' Q s) :
    Steps J ns results Q results' (none, s) :=
  ⟨h, fun _ _ heq => absurd heq (by simp), fun _ _ heq => absurd heq (by simp)⟩

theorem Inv.goOn (h : Inv J ns results Q s) (hmade : Made J ns Q call key) {next : Caller V}
    (hnext : CallerOk J ns results call key next) (caller : Nat) :
    Steps J ns results Q results (s.goOn caller call key next) := by
  cases next with
  | returned value => exact h.finish_ok hmade.called hnext caller
  | raised error => exact h.finish_error hmade.called caller _
  | idle | waiting | generating | completing =>
    exact (h.setTask caller (.leased call key _) ⟨hmade, hnext⟩).silent

theorem callerOk_returnDecoded (hkey : call.key J = .ok key) {bytes : Bytes}
    (hstored : call.resolvedNamespace = ns → Stored J ns results key bytes) :
    CallerOk J ns results call key (call.getOrSet.returnDecoded bytes) := by
  unfold GetOrSet.returnDecoded
  split
  next value hdecode => exact .inr fun hns => ⟨key, bytes, hkey, hstored hns, hdecode⟩
  next => trivial

theorem callerOk_retry (deadline nowMs : Int) (message : String) :
    CallerOk J ns results call key (GetOrSet.retry deadline nowMs message) := by
  unfold GetOrSet.retry
  split <;> trivial

theorem Inv.startLease (h : Inv J ns results Q s) (hmade : Made J ns Q call key) (caller : Nat)
    (deadline nowMs : Int) :
    Steps J ns results Q results
      (Memo.goOn { s with engine := (s.engine.startLease call.resolvedNamespace key
          call.policy.leaseTtlMs).2 } caller call key
        (call.getOrSet.afterStartLease deadline nowMs
          (s.engine.startLease call.resolvedNamespace key call.policy.leaseTtlMs).1)) := by
  have hinv := h.exec (.startLease call.resolvedNamespace key call.policy.leaseTtlMs)
    fun _ _ hstores => absurd hstores (by simp [Op.stores])
  refine Inv.goOn hinv hmade ?_ caller
  have hsound := Engine.sound_startLease s.engine call.resolvedNamespace key call.policy.leaseTtlMs
  generalize (s.engine.startLease call.resolvedNamespace key call.policy.leaseTtlMs).1 = outcome
    at hsound ⊢
  cases outcome with
  | hit value =>
    exact callerOk_returnDecoded hmade.key fun hns => h.stored_of_sound hns hsound
  | stale value =>
    simp only [GetOrSet.afterStartLease]
    split
    · exact callerOk_returnDecoded hmade.key fun hns => h.stored_of_sound hns hsound
    · exact callerOk_retry ..
  | leaseGranted leaseToken staleValue =>
    cases staleValue with
    | none => trivial
    | some stale => exact fun hns => h.stored_of_sound hns hsound
  | leaseDenied => exact callerOk_retry ..

theorem Inv.returnDecoded (h : Inv J ns results Q s) (hmade : Made J ns Q call key) {bytes : Bytes}
    (hstored : call.resolvedNamespace = ns → Stored J ns results key bytes) (caller : Nat) :
    Steps J ns results Q results (s.returnDecoded caller call bytes) := by
  unfold Memo.returnDecoded
  split
  next value hdecode =>
    refine h.finish_ok hmade.called (.inr fun hns => ?_) caller
    exact ⟨key, bytes, hmade.key, hstored hns, hdecode⟩
  next => exact h.finish_error hmade.called caller _

theorem Inv.get (h : Inv J ns results Q s) (hmade : Made J ns Q call key) (caller : Nat) :
    Steps J ns results Q results (s.get caller call key) := by
  have hinv := h.exec (.get call.resolvedNamespace key)
    fun _ _ hstores => absurd hstores (by simp [Op.stores])
  have hsound := Engine.sound_get s.engine call.resolvedNamespace key
  change Inv J ns results Q { s with engine := (s.engine.get call.resolvedNamespace key).2 } at hinv
  unfold Memo.get
  rcases hget : s.engine.get call.resolvedNamespace key with ⟨outcome, engine⟩
  rw [hget] at hinv hsound
  cases outcome with
  | miss => exact (hinv.setTask caller (.generating call key) hmade).silent
  | hit value => exact hinv.returnDecoded hmade (fun hns => h.stored_of_sound hns hsound) caller
  | stale value => exact hinv.returnDecoded hmade (fun hns => h.stored_of_sound hns hsound) caller

theorem stored_own (hmade : Made J ns Q call key) {value : V} (hvalue : (call, value) ∈ results)
    {encoded : Bytes} (hencode : call.selected.encode value = some encoded) {key' bytes : Bytes}
    (hstores : (if call.resolvedNamespace = ns then some (key, encoded) else none) =
      some (key', bytes)) : Stored J ns results key' bytes := by
  split_ifs at hstores with hns
  cases hstores
  exact ⟨call, value, hvalue, hns, hmade.key, hencode⟩

theorem Inv.put (h : Inv J ns results Q s) (hmade : Made J ns Q call key) {value : V}
    (hvalue : (call, value) ∈ results) (caller : Nat) (o : IterOrder) :
    Steps J ns results Q results (s.put caller call key value o) := by
  unfold Memo.put
  split
  next => exact h.finish_error hmade.called caller _
  next encoded hencode =>
    have hinv := h.exec (.put o (call.putCommand key encoded)) fun _ _ hstores =>
      stored_own hmade hvalue hencode hstores
    change Inv J ns results Q { s with engine := (s.engine.put o _).2 } at hinv
    split
    next engine hput =>
      rw [hput] at hinv
      exact hinv.finish_ok hmade.called (.inl hvalue) caller
    next error engine hput =>
      rw [hput] at hinv
      exact hinv.finish_error hmade.called caller _

theorem Inv.completeLease (h : Inv J ns results Q s) (hmade : Made J ns Q call key) {value : V}
    (hvalue : (call, value) ∈ results) (leaseToken : String) (caller : Nat) (o : IterOrder) :
    Steps J ns results Q results
      (Memo.goOn { s with engine := (call.getOrSet.complete call.resolvedNamespace key leaseToken
          value o s.engine).2 } caller call key
        (call.getOrSet.complete call.resolvedNamespace key leaseToken value o s.engine).1) := by
  unfold GetOrSet.complete
  split
  next =>
    refine Inv.goOn h hmade ?_ caller
    trivial
  next encoded hencode =>
    have hinv := h.exec (.completeLease o (call.getOrSet.completion call.resolvedNamespace key
        leaseToken encoded)) fun _ _ hstores => stored_own hmade hvalue hencode hstores
    change Inv J ns results Q { s with engine := (s.engine.completeLease o _).2 } at hinv
    split
    next engine hcomplete =>
      rw [hcomplete] at hinv
      refine Inv.goOn hinv hmade ?_ caller
      exact Or.inl hvalue
    next error engine hcomplete =>
      rw [hcomplete] at hinv
      refine Inv.goOn hinv hmade ?_ caller
      trivial

theorem Inv.begin (h : Inv J ns results Q s) (hcalled : call.resolvedNamespace = ns → Q call)
    (caller : Nat) (nowMs : Int) :
    Steps J ns results Q results (s.begin J caller call nowMs) := by
  unfold Memo.begin
  split
  next error _ => exact h.finish_error hcalled caller _
  next key hkey =>
    split
    · refine (h.setTask caller (.leased call key (.waiting _)) ⟨⟨hkey, hcalled⟩, ?_⟩).silent
      trivial
    · exact (h.setTask caller (.getting call key) ⟨hkey, hcalled⟩).silent

theorem callerOk_afterFactory (hkey : call.key J = .ok key) {leaseToken : String}
    {staleValue : Option Bytes}
    (hstale : CallerOk J ns results call key (.generating leaseToken staleValue)) :
    CallerOk J ns results call key (call.getOrSet.afterFactory leaseToken staleValue none) := by
  cases staleValue with
  | none => trivial
  | some stale =>
    simp only [GetOrSet.afterFactory]
    split
    · exact callerOk_returnDecoded hkey hstale
    · trivial

/-- What others may do: they do not write to the namespace. -/
def Action.Apart (ns : String) : Action V φ → Prop
  | .other (.put _ command) => command.ns ≠ ns
  | .other (.completeLease _ command) => command.ns ≠ ns
  | _ => True

/-- The call that the action begins meets the condition. -/
def Action.Calls (ns : String) (Q : Memoized V φ → Prop) : Action V φ → Prop
  | .call _ call _ => call.resolvedNamespace = ns → Q call
  | _ => True

theorem Inv.other (h : Inv J ns results Q s) {op : Op}
    (hapart : (Action.other op : Action V φ).Apart ns) :
    Inv J ns results Q { s with engine := (s.engine.exec op).2 } := by
  refine h.exec op fun key value hstores => ?_
  cases op with
  | put o command => rw [Op.stores, if_neg hapart] at hstores; cases hstores
  | completeLease o command => rw [Op.stores, if_neg hapart] at hstores; cases hstores
  | _ => cases hstores

/-- A function returns or raises an exception. -/
theorem Inv.function (h : Inv J ns results Q s) (caller : Nat) (result : Option V) :
    Steps J ns results Q
      ((Event.result (Machine.event (Memo.step J) s (.function caller result))).toList ++ results)
      (s.step J (.function caller result)) := by
  have hok := h.tasks caller
  cases result with
  | none =>
    simp only [Memo.step, Event.result, Machine.event]
    split
    next call key leaseToken staleValue htask =>
      rw [htask] at hok
      exact h.goOn hok.1 (callerOk_afterFactory hok.1.key hok.2) caller
    next call key htask =>
      rw [htask] at hok
      exact h.finish_error hok.called caller _
    next => exact h.silent
  | some value =>
    cases htask : s.tasks caller with
    | leased call key stage =>
      rw [htask] at hok
      cases stage with
      | generating leaseToken staleValue =>
        simp only [Memo.step, Event.result, Machine.event, htask]
        refine ((h.cons hok.1 value).setTask caller
          (.leased call key (.completing leaseToken value)) ⟨hok.1, ?_⟩).silent
        exact List.mem_cons_self
      | _ =>
        simp only [Memo.step, Event.result, Machine.event, htask]
        exact h.silent
    | generating call key =>
      rw [htask] at hok
      simp only [Memo.step, Event.result, Machine.event, htask]
      exact ((h.cons hok value).setTask caller (.storing call key value)
        ⟨hok, List.mem_cons_self⟩).silent
    | _ =>
      simp only [Memo.step, Event.result, Machine.event, htask]
      exact h.silent

/-- One step: the results grow by what a function returns in it. -/
theorem Inv.step (h : Inv J ns results Q s) {action : Action V φ} (hapart : action.Apart ns)
    (hcalls : action.Calls ns Q) :
    Steps J ns results Q
      ((Event.result (Machine.event (Memo.step J) s action)).toList ++ results)
      (s.step J action) := by
  cases action with
  | call caller call nowMs =>
    simp only [Memo.step]
    split
    · exact h.begin hcalls caller nowMs
    · exact h.silent
  | startLease caller nowMs =>
    simp only [Memo.step]
    split
    next call key deadline htask =>
      have hok := h.tasks caller
      rw [htask] at hok
      exact h.startLease hok.1 caller deadline nowMs
    next => exact h.silent
  | get caller =>
    simp only [Memo.step]
    split
    next call key htask =>
      have hok := h.tasks caller
      rw [htask] at hok
      exact h.get hok caller
    next => exact h.silent
  | function caller result => exact h.function caller result
  | completeLease caller o =>
    simp only [Memo.step]
    split
    next call key leaseToken value htask =>
      have hok := h.tasks caller
      rw [htask] at hok
      exact h.completeLease hok.1 hok.2 leaseToken caller o
    next => exact h.silent
  | put caller o =>
    simp only [Memo.step]
    split
    next call key value htask =>
      have hok := h.tasks caller
      rw [htask] at hok
      exact h.put hok.1 hok.2 caller o
    next => exact h.silent
  | other op => exact (h.other hapart).silent

/-! ## Runs -/

/-- An empty engine, and nobody has called yet. -/
def start (clock : Clock) (limits : EngineLimits) : Memo V φ :=
  ⟨.withClockAndLimits clock limits, fun _ => .idle⟩

theorem inv_start (clock : Clock) (limits : EngineLimits) :
    Inv J ns [] Q (start clock limits : Memo V φ) :=
  ⟨Engine.inv_withClockAndLimits clock limits, Engine.contains_withClockAndLimits _ ns clock limits,
    fun _ => trivial, fun _ _ hmem => by cases hmem⟩

theorem inv_run {s₀ : Memo V φ} (h₀ : Inv J ns [] Q s₀) {actions : List (Action V φ)}
    (hactions : ∀ action ∈ actions, action.Apart ns ∧ action.Calls ns Q) :
    Inv J ns ((Machine.history (Memo.step J) s₀ actions).filterMap Event.result) Q
      (Machine.run (Memo.step J) s₀ actions) := by
  induction actions using List.reverseRecOn with
  | nil => exact h₀
  | append_singleton actions action ih =>
    rw [List.forall_mem_append, List.forall_mem_singleton] at hactions
    have hstep := ((ih hactions.1).step hactions.2.1 hactions.2.2).inv
    rw [Machine.history_concat, Machine.run_concat, List.filterMap_cons]
    split
    next hresult =>
      rw [hresult] at hstep
      exact hstep
    next result hresult =>
      rw [hresult] at hstep
      exact hstep

end
end Memo

/-! ## Keys -/

namespace Memoized

/-- The call has no key function, and has a prefix and a version, or not. -/
structure Plain (withPrefix withVersion : Bool) (call : Memoized V φ) : Prop where
  keyFunc : call.keyFunc = none
  keyPrefix : (call.keyPrefix.or call.cache.keys.keyPrefix).isSome = withPrefix
  version : (call.version.or call.cache.keys.keyVersion).isSome = withVersion

/-- Two calls of functions of one name with the same arguments, that is, with the same normal
form. -/
structure SameCall (call call' : Memoized V φ) : Prop where
  name : call.function.name = call'.function.name
  arguments : ∃ as as' n, call.bound = .ok as ∧ call'.bound = .ok as' ∧
    (Keys.argumentList as).NormalForm n ∧ (Keys.argumentList as').NormalForm n

theorem key_of_plain {J : JsonDumps φ} {call : Memoized V φ} {key : Bytes}
    (hkey : call.key J = .ok key) (hfunc : call.keyFunc = none) :
    ∃ as n payload, call.bound = .ok as ∧ (Keys.argumentList as).NormalForm n ∧
      Keys.jsonBytes J (Keys.payload call.function n) = .ok payload ∧
      Keys.joinKeyParts (call.keyPrefix.or call.cache.keys.keyPrefix)
        (call.version.or call.cache.keys.keyVersion) payload = .ok key := by
  rw [Memoized.key, Keys.memoizeKey, hfunc] at hkey
  cases hbound : call.bound with
  | error error =>
    rw [hbound] at hkey
    cases hkey
  | ok as =>
    rw [hbound] at hkey
    obtain ⟨n, payload, hn, hpayload, hjoin⟩ := Keys.buildFunctionKey_eq_ok_iff.mp hkey
    exact ⟨as, n, payload, rfl, hn, hpayload, hjoin⟩

/-- Calls with one key are the same call. -/
theorem sameCall_of_key {J : JsonDumps φ} {withPrefix withVersion : Bool}
    {call call' : Memoized V φ} {key : Bytes} (hkey : call.key J = .ok key)
    (hkey' : call'.key J = .ok key) (hplain : call.Plain withPrefix withVersion)
    (hplain' : call'.Plain withPrefix withVersion) : call.SameCall call' := by
  obtain ⟨as, n, payload, hbound, hn, hpayload, hjoin⟩ := key_of_plain hkey hplain.keyFunc
  obtain ⟨as', n', payload', hbound', hn', hpayload', hjoin'⟩ :=
    key_of_plain hkey' hplain'.keyFunc
  obtain ⟨-, -, rfl⟩ := Keys.joinKeyParts_inj hjoin hjoin'
    (hplain.keyPrefix.trans hplain'.keyPrefix.symm) (hplain.version.trans hplain'.version.symm)
  obtain ⟨hname, rfl⟩ := Keys.payload_inj hn hn' hpayload hpayload'
  exact ⟨hname, as, as', n, hbound, hbound', hn, hn'⟩

end Memoized

namespace Memo

/-- **A memoized call returns what the function has returned for its arguments.** However many
callers call memoized functions at the same time, with whatever options, functions and arguments,
whether leases run out, functions raise exceptions and entries are evicted, expire, are deleted or
invalidated: a call that returns a value returns what a function of that name has returned before,
for the same arguments, to the same call or to one whose encoded result this call has decoded. The
namespace is left to memoized functions that have no key function and agree on whether there are a
prefix and a version. -/
theorem memoized_calls_return_own_results (J : JsonDumps φ) (ns : String)
    (withPrefix withVersion : Bool) (clock : Clock) (limits : EngineLimits)
    (actions : List (Action V φ))
    (hactions : ∀ action ∈ actions,
      action.Apart ns ∧ action.Calls ns (Memoized.Plain withPrefix withVersion))
    {newer older : List (Event V φ)} {ev : Event V φ}
    (hev : Machine.history (step J) (start clock limits) actions = newer ++ ev :: older)
    {call : Memoized V φ} {value : V} (hreturned : ev.outcome = some (call, .ok value))
    (hns : call.resolvedNamespace = ns) :
    ∃ call' result, (call', result) ∈ older.filterMap Event.result ∧ call'.SameCall call ∧
      (value = result ∨ ∃ bytes, call'.selected.encode result = some bytes ∧
        call.selected.decode bytes = some value) := by
  obtain ⟨earlier, action, later, rfl, rfl, rfl⟩ := Machine.history_split (step J) hev
  rw [List.forall_mem_append, List.forall_mem_cons] at hactions
  have hinv : Inv J ns _ (Memoized.Plain withPrefix withVersion) _ :=
    inv_run (inv_start clock limits) hactions.1
  have hstep := hinv.step hactions.2.1.1 hactions.2.1.2
  have hplain := hstep.called call _ hreturned hns
  obtain hmem | hstored := hstep.rightful call value hreturned
  · obtain ⟨key, hmade⟩ := hinv.made call value hmem
    exact ⟨call, value, hmem, Memoized.sameCall_of_key hmade.key hmade.key hplain hplain, .inl rfl⟩
  · obtain ⟨key, bytes, hkey, ⟨call', result, hmem, hns', hkey', hencode⟩, hdecode⟩ := hstored hns
    obtain ⟨_, hmade⟩ := hinv.made call' result hmem
    exact ⟨call', result, hmem, Memoized.sameCall_of_key hkey' hkey (hmade.called hns') hplain,
      .inr ⟨bytes, hencode, hdecode⟩⟩

/-- A call of the function `m.f` with a dict, whose result is stored as it is. -/
def dictCall (protect swapped : Bool) : Memoized Bytes Empty where
  cache := ⟨"py", ⟨some, some⟩, ⟨none, none⟩, {}⟩
  ttlMs := none
  staleTtlMs := none
  tags := []
  cost := none
  serializer := none
  ns := none
  keyPrefix := none
  version := none
  dogpile := .bool protect
  function := ⟨.ofString "m", .ofString "f"⟩
  keyFunc := none
  bound := .ok [(.ofString "x", Keys.twoItems swapped)]

/-- The first caller fills the key under a lease. The second one has the items of the dict in the
other order and no stampede protection. -/
def swappedItems : List (Action Bytes Empty) :=
  [.call 0 (dictCall true false) 0, .startLease 0 0, .call 1 (dictCall false true) 0,
    .function 0 (some [7]), .completeLease 0 .asStored]

theorem memoized_calls_return_own_results_swappedItems :
    let s := start ⟨fun _ => 0, 0⟩ default
    let ev := Machine.event (step Keys.decimalJson)
      (Machine.run (step Keys.decimalJson) s swappedItems) (.get 1)
    ev.outcome.map (·.2) = some (.ok [7]) ∧
      ∃ call call' result, (call', result) ∈
          (Machine.history (step Keys.decimalJson) s swappedItems).filterMap Event.result ∧
        call'.SameCall call ∧ ([7] = result ∨ ∃ bytes, call'.selected.encode result = some bytes ∧
          call.selected.decode bytes = some [7]) := by
  intro s ev
  have hend : ev.outcome.map (fun o => (o.1.resolvedNamespace, o.2)) = some ("py", .ok [7]) := by
    decide +kernel
  obtain ⟨⟨call, _⟩, hreturned, hcall⟩ := Option.map_eq_some_iff.mp hend
  obtain ⟨hns, rfl⟩ := Prod.mk.inj hcall
  have hev : Machine.history (step Keys.decimalJson) s (swappedItems ++ [.get 1]) =
      [] ++ ev :: Machine.history (step Keys.decimalJson) s swappedItems :=
    Machine.history_concat ..
  refine ⟨by rw [hreturned]; rfl, call, ?_⟩
  refine memoized_calls_return_own_results Keys.decimalJson "py" false false ⟨fun _ => 0, 0⟩
    default (swappedItems ++ [.get 1]) ?_ hev hreturned hns
  intro action haction
  have hplain : ∀ protect swapped, (dictCall protect swapped).Plain false false :=
    fun _ _ => ⟨rfl, rfl, rfl⟩
  simp only [swappedItems, List.cons_append, List.nil_append, List.mem_cons, List.not_mem_nil,
    or_false] at haction
  rcases haction with rfl | rfl | rfl | rfl | rfl | rfl
  · exact ⟨trivial, fun _ => hplain true false⟩
  · exact ⟨trivial, trivial⟩
  · exact ⟨trivial, fun _ => hplain false true⟩
  · exact ⟨trivial, trivial⟩
  · exact ⟨trivial, trivial⟩
  · exact ⟨trivial, trivial⟩

end Memo
end Cachebox.Client
