import Cachebox.Engine.LeaseTokens

/-!
# Stampede protection of the Python client (`Cachebox._get_or_set_keyed_with_lease`)

A caller asks the engine for the key until it is given a value or a lease. With a lease it calls its
factory, completes the lease with the encoded value and returns the value. `Caller` is where a
caller is in that loop, and `step` lets one caller make its next step against the engine; the steps
of several callers, and other operations on the engine, interleave in any order.

While the key is missing, one caller at a time holds the lease, and the others are told to wait.
Once the lease is completed, everybody is given the stored value as long as it is fresh. A stale
value is refreshed: the next caller that asks is given a lease and calls its factory.
-/

namespace Cachebox.Client

/-- A `Serializer`. Where the source raises an `EncodeError` or a `DecodeError`, the result is
`none`. -/
structure Serializer (V : Type) where
  encode : V → Option Bytes
  decode : Bytes → Option V

/-- The fields of a `DogpilePolicy` that decide what the loop does. How long a caller sleeps between
two attempts is left to the interleaving. -/
structure DogpilePolicy where
  leaseTtlMs : UInt64 := 30000
  returnStale : Bool := true
  waitTimeoutMs : Int := 5000
  returnStaleOnError : Bool := true
  deriving DecidableEq, Repr

/-- The arguments of a call of `_get_or_set_keyed_with_lease`, apart from the key and the
factory. -/
structure GetOrSet (V : Type) where
  serializer : Serializer V
  policy : DogpilePolicy
  ttlMs : Option UInt64
  staleTtlMs : Option UInt64
  tags : List String
  cost : Option UInt64

/-- A lifetime as it arrives at the engine: on the wire, zero stands for an absent one. -/
def lifetime (ms : Option UInt64) : Option Ttl := (ms.filter (· != 0)).map Ttl.mk

inductive CacheError where
  | dogpileTimeout (message : String)
  | factory
  | encode
  | decode
  | completeLease (error : CompleteLeaseError)
  deriving DecidableEq, Repr

/-- Where a caller is. -/
inductive Caller (V : Type) where
  | idle
  /-- At the top of the loop. -/
  | waiting (deadline : Int)
  /-- About to call the factory. -/
  | generating (leaseToken : String) (staleValue : Option Bytes)
  /-- About to encode the value of the factory and to complete the lease. -/
  | completing (leaseToken : String) (value : V)
  | returned (value : V)
  | raised (error : CacheError)
  deriving DecidableEq, Repr

variable {V : Type}

namespace GetOrSet

/-- `return selected.decode(value)`. -/
def returnDecoded (call : GetOrSet V) (value : Bytes) : Caller V :=
  match call.serializer.decode value with
  | some value => .returned value
  | none => .raised .decode

/-- Go around the loop again unless the deadline has passed. -/
def retry (deadline nowMs : Int) (message : String) : Caller V :=
  if deadline ≤ nowMs then .raised (.dogpileTimeout message) else .waiting deadline

def afterStartLease (call : GetOrSet V) (deadline nowMs : Int) : StartLeaseOutcome → Caller V
  | .hit value => call.returnDecoded value
  | .stale value =>
    if call.policy.returnStale then call.returnDecoded value
    else retry deadline nowMs "timed out waiting for fresh cache value"
  | .leaseGranted leaseToken staleValue => .generating leaseToken staleValue
  | .leaseDenied => retry deadline nowMs "timed out waiting for cache lease"

/-- The factory has returned a value, or it has raised an exception. -/
def afterFactory (call : GetOrSet V) (leaseToken : String) (staleValue : Option Bytes) :
    Option V → Caller V
  | some value => .completing leaseToken value
  | none =>
    match staleValue with
    | some value =>
      if call.policy.returnStaleOnError then call.returnDecoded value else .raised .factory
    | none => .raised .factory

/-- The request that completes the lease, with the metadata of `make_metadata`. -/
def completion (call : GetOrSet V) (ns : String) (key : Bytes) (leaseToken : String)
    (encoded : Bytes) : CompleteLeaseCommand where
  ns := ns
  key := key
  leaseToken := leaseToken
  value := encoded
  ttl := lifetime call.ttlMs
  staleTtl := lifetime call.staleTtlMs
  tags := call.tags
  cost := call.cost

/-- Encode the value, complete the lease and return the value. -/
def complete (call : GetOrSet V) (ns : String) (key : Bytes) (leaseToken : String) (value : V)
    (o : IterOrder) (e : Engine) : Caller V × Engine :=
  match call.serializer.encode value with
  | none => (.raised .encode, e)
  | some encoded =>
    match e.completeLease o (call.completion ns key leaseToken encoded) with
    | (.ok _, e) => (.returned value, e)
    | (.error error, e) => (.raised (.completeLease error), e)

end GetOrSet

/-- An engine and its callers. -/
structure System (V : Type) where
  engine : Engine
  callers : Nat → Caller V

/-- The steps of a caller, and an operation of somebody else. A step of a caller that reads its
monotonic clock carries the reading. -/
inductive Action (V : Type) where
  | begin (caller : Nat) (nowMs : Int)
  | startLease (caller : Nat) (nowMs : Int)
  | factory (caller : Nat) (result : Option V)
  | completeLease (caller : Nat) (o : IterOrder)
  | other (op : Op)

section
variable (ns : String) (key : Bytes) (calls : Nat → GetOrSet V)

/-- The step of a caller that is somewhere else does nothing. -/
def step (s : System V) : Action V → Unit × System V
  | .begin caller nowMs =>
    match s.callers caller with
    | .idle =>
      let deadline := nowMs + (calls caller).policy.waitTimeoutMs
      ((), { s with callers := Function.update s.callers caller (.waiting deadline) })
    | _ => ((), s)
  | .startLease caller nowMs =>
    match s.callers caller with
    | .waiting deadline =>
      let (outcome, engine) := s.engine.startLease ns key (calls caller).policy.leaseTtlMs
      let next := (calls caller).afterStartLease deadline nowMs outcome
      ((), ⟨engine, Function.update s.callers caller next⟩)
    | _ => ((), s)
  | .factory caller result =>
    match s.callers caller with
    | .generating leaseToken staleValue =>
      let next := (calls caller).afterFactory leaseToken staleValue result
      ((), { s with callers := Function.update s.callers caller next })
    | _ => ((), s)
  | .completeLease caller o =>
    match s.callers caller with
    | .completing leaseToken value =>
      let (next, engine) := (calls caller).complete ns key leaseToken value o s.engine
      ((), ⟨engine, Function.update s.callers caller next⟩)
    | _ => ((), s)
  | .other op => ((), { s with engine := (s.engine.exec op).2 })

abbrev Event (V : Type) := Machine.Event (System V) (Action V) Unit

/-- The caller that calls its factory in the event, with what the factory returns. -/
def Event.invocation (ev : Event V) : Option (Nat × Option V) :=
  match ev.action with
  | .factory caller result =>
    match ev.before.callers caller with
    | .generating _ _ => some (caller, result)
    | _ => none
  | _ => none

/-- The readings of the engine's clock between `e` and `e'` are not past the end of the lease. -/
def OnTime (e e' : Engine) (lease : Lease) : Prop :=
  ∀ i < e'.clock.reads, e.clock.reads ≤ i → e.clock.readings i ≤ lease.expiresAtMs

instance (e e' : Engine) (lease : Lease) : Decidable (OnTime e e' lease) :=
  inferInstanceAs (Decidable (∀ i < _, _ → _))

/-- Nothing goes wrong in the step. A lease that has not been completed is not past its end, neither
when its holder completes it nor when another caller asks for the key; a stored entry that a caller
finds is in one of the states `live`; the factory returns a value; its encoding is within the
limits; and the operations of others leave the entry and the lease of the key alone. -/
def smooth (live : EntryState → Bool) (s : System V) : Action V → Bool
  | .begin _ _ => true
  | .startLease caller _ =>
    match s.callers caller with
    | .waiting _ =>
      let e' := (s.engine.startLease ns key (calls caller).policy.leaseTtlMs).2
      decide <|
        (∀ lease, s.engine.leases.lookup ⟨ns, key⟩ = some lease → OnTime s.engine e' lease) ∧
          ∀ entry, s.engine.entries.lookup ⟨ns, key⟩ = some entry →
            live (entryStateAt entry (s.engine.activeLease ⟨ns, key⟩).2.clock.nowMs)
    | _ => true
  | .factory _ result => result.isSome
  | .completeLease caller _ =>
    match s.callers caller with
    | .completing _ value =>
      decide <|
        (∃ encoded, (calls caller).serializer.encode value = some encoded ∧
          encoded.length ≤ s.engine.limits.maxValueBytes ∧
          estimateEntryMemory ⟨ns, key⟩ encoded (calls caller).tags ≤
            s.engine.limits.maxMemoryBytes) ∧
          ∀ lease, s.engine.leases.lookup ⟨ns, key⟩ = some lease →
            s.engine.clock.nowMs ≤ lease.expiresAtMs
    | _ => true
  | .other op =>
    decide <|
      (s.engine.exec op).2.record ⟨ns, key⟩ = s.engine.record ⟨ns, key⟩ ∧
        (s.engine.exec op).2.leases.lookup ⟨ns, key⟩ = s.engine.leases.lookup ⟨ns, key⟩

/-- In a run in which nothing goes wrong the factory is called at most once, and every caller that
returns yields the value of the factory or what its serializer decodes from the encoding. -/
def Protected (live : EntryState → Bool) (s₀ : System V) (actions : List (Action V)) : Prop :=
  let history : List (Event V) := Machine.history (step ns key calls) s₀ actions
  (∀ ev ∈ history, smooth ns key calls live ev.before ev.action) →
    (history.filterMap Event.invocation).length ≤ 1 ∧
      ∀ caller v, (Machine.run (step ns key calls) s₀ actions).callers caller = .returned v →
        ∃ filler v₀, (filler, some v₀) ∈ history.filterMap Event.invocation ∧
          (v = v₀ ∨ ∃ encoded, (calls filler).serializer.encode v₀ = some encoded ∧
            (calls caller).serializer.decode encoded = some v)

/-! ## The stages of a run -/

/-- The caller has nothing to do with a lease and has not returned. -/
def Caller.Out : Caller V → Prop
  | .idle | .waiting _ | .raised _ => True
  | _ => False

/-- The caller may have returned `v` or a decoded `encoded`. -/
def Caller.Served (call : GetOrSet V) (v : V) (encoded : Bytes) (caller : Caller V) : Prop :=
  caller.Out ∨ ∃ w, caller = .returned w ∧ (w = v ∨ call.serializer.decode encoded = some w)

/-- How far the run has come, with the calls of the factory so far. -/
inductive Stage : List (Nat × Option V) → System V → Prop
  | missing {s} : s.engine.record ⟨ns, key⟩ = none → s.engine.leases.lookup ⟨ns, key⟩ = none →
      (∀ c, (s.callers c).Out) → Stage [] s
  | generating {s} (c staleValue lease) : s.engine.record ⟨ns, key⟩ = none →
      s.engine.leases.lookup ⟨ns, key⟩ = some lease →
      s.callers c = .generating lease.token staleValue →
      (∀ c', c' ≠ c → (s.callers c').Out) → Stage [] s
  | completing {s} (c v lease) : s.engine.record ⟨ns, key⟩ = none →
      s.engine.leases.lookup ⟨ns, key⟩ = some lease →
      s.callers c = .completing lease.token v →
      (∀ c', c' ≠ c → (s.callers c').Out) → Stage [(c, some v)] s
  | filled {s} (c v r) : s.engine.record ⟨ns, key⟩ = some r →
      s.engine.leases.lookup ⟨ns, key⟩ = none →
      (calls c).serializer.encode v = some r.value →
      (∀ c', (s.callers c').Served (calls c') v r.value) → Stage [(c, some v)] s

end

variable {ns : String} {key : Bytes} {calls : Nat → GetOrSet V} {s : System V}
  {invocations : List (Nat × Option V)}

theorem out_update {callers : Nat → Caller V} {c c' : Nat} {caller : Caller V}
    (hcaller : caller.Out) (h : (callers c').Out) :
    (Function.update callers c caller c').Out := by
  rw [Function.update_apply]
  split
  · exact hcaller
  · exact h

theorem others_update {callers : Nat → Caller V} {c : Nat} (caller : Caller V)
    (h : ∀ c', c' ≠ c → (callers c').Out) (c' : Nat) (hne : c' ≠ c) :
    (Function.update callers c caller c').Out := by
  rw [Function.update_of_ne hne]
  exact h c' hne

theorem served_update {callers : Nat → Caller V} {c c' : Nat} {caller : Caller V} {v : V}
    {encoded : Bytes} (hcaller : caller.Served (calls c) v encoded)
    (h : (callers c').Served (calls c') v encoded) :
    (Function.update callers c caller c').Served (calls c') v encoded := by
  rw [Function.update_apply]
  split
  · next hc => rw [hc]; exact hcaller
  · exact h

/-- Of the engine, a stage depends on the record and the lease of the key. -/
theorem Stage.engine (h : Stage ns key calls invocations s) (e' : Engine)
    (hrecord : e'.record ⟨ns, key⟩ = s.engine.record ⟨ns, key⟩)
    (hlease : e'.leases.lookup ⟨ns, key⟩ = s.engine.leases.lookup ⟨ns, key⟩) :
    Stage ns key calls invocations { s with engine := e' } := by
  cases h with
  | missing hnone hfree hothers =>
    exact .missing (hrecord.trans hnone) (hlease.trans hfree) hothers
  | generating c staleValue lease hnone hleased hc hothers =>
    exact .generating c staleValue lease (hrecord.trans hnone) (hlease.trans hleased) hc hothers
  | completing c v lease hnone hleased hc hothers =>
    exact .completing c v lease (hrecord.trans hnone) (hlease.trans hleased) hc hothers
  | filled c v r hr hfree hencode hserved =>
    exact .filled c v r (hrecord.trans hr) (hlease.trans hfree) hencode hserved

/-- A caller that is out may move as long as it stays out. -/
theorem Stage.caller (h : Stage ns key calls invocations s) {c : Nat} {caller : Caller V}
    (hout : (s.callers c).Out) (hcaller : caller.Out) :
    Stage ns key calls invocations { s with callers := Function.update s.callers c caller } := by
  have hne : ∀ {c' : Nat}, ¬ (s.callers c').Out → c' ≠ c := by
    rintro c' hc' rfl
    exact hc' hout
  cases h with
  | missing hnone hfree hothers =>
    exact .missing hnone hfree fun c' => out_update hcaller (hothers c')
  | generating c₀ staleValue lease hnone hleased hc₀ hothers =>
    refine .generating c₀ staleValue lease hnone hleased ?_
      fun c' h => out_update hcaller (hothers c' h)
    exact (Function.update_of_ne (hne (by rw [hc₀]; exact not_false)) ..).trans hc₀
  | completing c₀ v lease hnone hleased hc₀ hothers =>
    refine .completing c₀ v lease hnone hleased ?_ fun c' h => out_update hcaller (hothers c' h)
    exact (Function.update_of_ne (hne (by rw [hc₀]; exact not_false)) ..).trans hc₀
  | filled c₀ v r hr hfree hencode hserved =>
    exact .filled c₀ v r hr hfree hencode fun c' => served_update (.inl hcaller) (hserved c')

theorem retry_out (deadline nowMs : Int) (message : String) :
    (GetOrSet.retry deadline nowMs message : Caller V).Out := by
  unfold GetOrSet.retry
  split <;> trivial

theorem served_returnDecoded (call : GetOrSet V) (v : V) (encoded : Bytes) :
    (call.returnDecoded encoded).Served call v encoded := by
  unfold GetOrSet.returnDecoded
  split
  · next w hdecode => exact .inr ⟨w, rfl, .inr hdecode⟩
  · exact .inl trivial

theorem Stage.length_le_one (h : Stage ns key calls invocations s) : invocations.length ≤ 1 := by
  cases h with
  | missing | generating => exact Nat.zero_le _
  | completing | filled => exact Nat.le_refl _

theorem Stage.returned (h : Stage ns key calls invocations s) {caller : Nat} {v : V}
    (hv : s.callers caller = .returned v) :
    ∃ filler v₀, (filler, some v₀) ∈ invocations ∧
      (v = v₀ ∨ ∃ encoded, (calls filler).serializer.encode v₀ = some encoded ∧
        (calls caller).serializer.decode encoded = some v) := by
  have hin : ¬ (s.callers caller).Out := by rw [hv]; exact not_false
  cases h with
  | missing _ _ hothers => exact absurd (hothers caller) hin
  | generating c staleValue lease _ _ hc hothers =>
    obtain rfl : caller = c := by_contra fun hne => hin (hothers caller hne)
    cases hc.symm.trans hv
  | completing c v₀ lease _ _ hc hothers =>
    obtain rfl : caller = c := by_contra fun hne => hin (hothers caller hne)
    cases hc.symm.trans hv
  | filled c v₀ r _ _ hencode hserved =>
    refine ⟨c, v₀, List.mem_singleton_self _, ?_⟩
    rcases hserved caller with hout | ⟨w, hw, hvalue⟩
    · exact absurd hout hin
    · cases hw.symm.trans hv
      exact hvalue.imp_right fun hdecode => ⟨r.value, hencode, hdecode⟩

/-! ## The steps -/

/-- A caller asks for the key: it is given the lease of a missing key, is told to wait while the
lease is out, and is given the stored value once there is one. -/
theorem Stage.startLease (h : Stage ns key calls invocations s) {c : Nat} {deadline nowMs : Int}
    (hc : s.callers c = .waiting deadline)
    (hsmooth : smooth ns key calls (· == .fresh) s (.startLease c nowMs)) :
    Stage ns key calls invocations (step ns key calls s (.startLease c nowMs)).2 := by
  simp only [smooth, hc, decide_eq_true_eq] at hsmooth
  obtain ⟨htime, hlive⟩ := hsmooth
  have hout : (s.callers c).Out := by rw [hc]; trivial
  -- while a lease is out, the caller is told to wait
  have hdenied : ∀ lease, s.engine.record ⟨ns, key⟩ = none →
      s.engine.leases.lookup ⟨ns, key⟩ = some lease →
      Stage ns key calls invocations (step ns key calls s (.startLease c nowMs)).2 := by
    intro lease hnone hleased
    have hreads := Engine.reads_startLease hleased (calls c).policy.leaseTtlMs
    have hready := htime lease hleased
    simp only [step, hc]
    rw [Engine.startLease_of_missing_leased (Engine.record_eq_none_iff.mp hnone) hleased
      (hready s.engine.clock.reads (by omega) (Nat.le_refl _))
      (hready (s.engine.clock.reads + 1) (by omega) (Nat.le_succ _))]
    exact (h.engine s.engine.tick.tick rfl rfl).caller hout (retry_out ..)
  cases h with
  | missing hnone hfree hothers =>
    simp only [step, hc]
    rw [Engine.startLease_of_missing_free (Engine.record_eq_none_iff.mp hnone) hfree]
    exact .generating c none _ hnone (AList.lookup_insert _) (Function.update_self ..)
      (others_update _ fun c' _ => hothers c')
  | generating c₀ staleValue lease hnone hleased => exact hdenied lease hnone hleased
  | completing c₀ v lease hnone hleased => exact hdenied lease hnone hleased
  | filled c₀ v r hr hfree hencode hserved =>
    obtain ⟨entry, hl, rfl⟩ := Option.map_eq_some_iff.mp hr
    have hidle : (s.engine.activeLease ⟨ns, key⟩).2 = s.engine := by
      simp [Engine.activeLease, hfree]
    have hfresh := eq_of_beq (hlive entry hl)
    simp only [step, hc]
    rw [Engine.startLease_of_fresh hl hfresh, hidle]
    refine .filled c₀ v entry.record ?_ ?_ hencode fun c' =>
      served_update (served_returnDecoded (calls c) v entry.value) (hserved c')
    · rw [Engine.record_recordAccess]
      exact hr
    · rw [Engine.recordAccess_leases]
      exact hfree

/-- The caller that holds the lease calls its factory. -/
theorem Stage.factory (h : Stage ns key calls invocations s) {c : Nat} {leaseToken : String}
    {staleValue : Option Bytes} {v : V} (hc : s.callers c = .generating leaseToken staleValue) :
    Stage ns key calls ((c, some v) :: invocations)
      (step ns key calls s (.factory c (some v))).2 := by
  have hbusy : ¬ (s.callers c).Out := by rw [hc]; exact not_false
  simp only [step, hc]
  cases h with
  | missing _ _ hothers => exact absurd (hothers c) hbusy
  | generating c₀ staleValue' lease hnone hleased hc₀ hothers =>
    obtain rfl : c = c₀ := by_contra fun hne => hbusy (hothers c hne)
    cases hc₀.symm.trans hc
    exact .completing c v lease hnone hleased (Function.update_self ..) (others_update _ hothers)
  | completing c₀ v₀ lease _ _ hc₀ hothers =>
    obtain rfl : c = c₀ := by_contra fun hne => hbusy (hothers c hne)
    cases hc₀.symm.trans hc
  | filled c₀ v₀ r _ _ _ hserved =>
    rcases hserved c with hout | ⟨w, hw, -⟩
    · exact absurd hout hbusy
    · cases hw.symm.trans hc

/-- The caller completes its lease, and the value is stored. -/
theorem Stage.completeLease (h : Stage ns key calls invocations s) (H : s.engine.Inv) {c : Nat}
    {leaseToken : String} {v : V} {o : IterOrder} {live : EntryState → Bool}
    (hc : s.callers c = .completing leaseToken v)
    (hsmooth : smooth ns key calls live s (.completeLease c o)) :
    Stage ns key calls invocations (step ns key calls s (.completeLease c o)).2 := by
  have hbusy : ¬ (s.callers c).Out := by rw [hc]; exact not_false
  simp only [smooth, hc, decide_eq_true_eq] at hsmooth
  obtain ⟨⟨encoded, hencode, hvalue, hmemory⟩, htime⟩ := hsmooth
  cases h with
  | missing _ _ hothers => exact absurd (hothers c) hbusy
  | generating c₀ staleValue lease _ _ hc₀ hothers =>
    obtain rfl : c = c₀ := by_contra fun hne => hbusy (hothers c hne)
    cases hc₀.symm.trans hc
  | filled c₀ v₀ r _ _ _ hserved =>
    rcases hserved c with hout | ⟨w, hw, -⟩
    · exact absurd hout hbusy
    · cases hw.symm.trans hc
  | completing c₀ v₀ lease hnone hleased hc₀ hothers =>
    obtain rfl : c = c₀ := by_contra fun hne => hbusy (hothers c hne)
    cases hc₀.symm.trans hc
    obtain ⟨outcome, hok, hrecord⟩ := Engine.completeLease_accepted H o
      ((calls c).completion ns key lease.token encoded) hleased rfl (htime lease hleased) hvalue
      hmemory
    have hfree := Engine.lookup_leases_completeLease hok
    simp only [step, hc, GetOrSet.complete, hencode]
    rcases hresult : s.engine.completeLease o ((calls c).completion ns key lease.token encoded) with
      ⟨result, e'⟩
    rw [hresult] at hok hrecord hfree
    cases hok
    refine .filled c v _ hrecord hfree hencode fun c' => ?_
    by_cases hne : c' = c
    · subst hne
      exact .inr ⟨v, Function.update_self .., .inl rfl⟩
    · exact .inl (others_update _ hothers c' hne)

theorem inv_step (H : s.engine.Inv) (action : Action V) :
    (step ns key calls s action).2.engine.Inv := by
  cases action with
  | begin c nowMs | factory c result =>
    simp only [step]
    split <;> exact H
  | startLease c nowMs =>
    simp only [step]
    split
    · exact H.startLease ns key _
    · exact H
  | completeLease c o =>
    simp only [step]
    split
    · next leaseToken value _ =>
      simp only [GetOrSet.complete]
      split
      · exact H
      · next encoded _ =>
        have H' := H.completeLease o ((calls c).completion ns key leaseToken encoded)
        split
        · next heq => rw [heq] at H'; exact H'
        · next heq => rw [heq] at H'; exact H'
    · exact H
  | other op => exact H.exec op

/-- Every step in which nothing goes wrong keeps to the stages. -/
theorem Stage.step (h : Stage ns key calls invocations s) (H : s.engine.Inv) (action : Action V)
    (hsmooth : smooth ns key calls (· == .fresh) s action) :
    Stage ns key calls
      ((Event.invocation (Machine.event (Client.step ns key calls) s action)).toList ++ invocations)
      (Client.step ns key calls s action).2 := by
  cases action with
  | begin c nowMs =>
    simp only [Client.step, Event.invocation, Machine.event]
    split
    · next hc => exact h.caller (by rw [hc]; trivial) trivial
    · exact h
  | startLease c nowMs =>
    cases hc : s.callers c with
    | waiting deadline => exact h.startLease hc hsmooth
    | _ =>
      simp only [Client.step, Event.invocation, Machine.event, hc]
      exact h
  | factory c result =>
    obtain ⟨v, rfl⟩ := Option.isSome_iff_exists.mp hsmooth
    cases hc : s.callers c with
    | generating leaseToken staleValue =>
      simp only [Event.invocation, Machine.event, hc]
      exact h.factory hc
    | _ =>
      simp only [Client.step, Event.invocation, Machine.event, hc]
      exact h
  | completeLease c o =>
    cases hc : s.callers c with
    | completing leaseToken value => exact h.completeLease H hc hsmooth
    | _ =>
      simp only [Client.step, Event.invocation, Machine.event, hc]
      exact h
  | other op =>
    simp only [smooth, decide_eq_true_eq] at hsmooth
    exact h.engine _ hsmooth.1 hsmooth.2

/-! ## Runs -/

/-- Every caller starts outside the call. -/
def System.start (e : Engine) : System V := ⟨e, fun _ => .idle⟩

theorem stage_run {s₀ : System V} (H : s₀.engine.Inv) (h₀ : Stage ns key calls [] s₀)
    {actions : List (Action V)}
    (hsmooth : ∀ ev ∈ Machine.history (step ns key calls) s₀ actions,
      smooth ns key calls (· == .fresh) ev.before ev.action) :
    Stage ns key calls
      ((Machine.history (step ns key calls) s₀ actions).filterMap Event.invocation)
      (Machine.run (step ns key calls) s₀ actions) := by
  induction actions using List.reverseRecOn with
  | nil => exact h₀
  | append_singleton actions action ih =>
    rw [Machine.history_concat, List.forall_mem_cons] at hsmooth
    have Hrun : (Machine.run (step ns key calls) s₀ actions).engine.Inv :=
      Machine.run_invariant (I := fun s : System V => s.engine.Inv)
        (fun _ action H => inv_step H action) H actions
    have hnext := (ih hsmooth.2).step Hrun action hsmooth.1
    rw [Machine.history_concat, Machine.run_concat]
    cases hinvocation : Event.invocation (Machine.event (step ns key calls)
        (Machine.run (step ns key calls) s₀ actions) action) with
    | none =>
      rw [hinvocation] at hnext
      rw [List.filterMap_cons_none hinvocation]
      exact hnext
    | some invocation =>
      rw [hinvocation] at hnext
      rw [List.filterMap_cons_some hinvocation]
      exact hnext

/-- **Stampede protection.** When the key has neither an entry nor a lease at the start, and the
stored entry is fresh whenever a caller asks for the key, the factory is called at most once, and
every caller that returns yields its value or the decoding of its encoding. -/
theorem protected_while_fresh (clock : Clock) (limits : EngineLimits) (pre : List Op) (ns : String)
    (key : Bytes)
    (hnone : ((Engine.withClockAndLimits clock limits).run pre).entries.lookup ⟨ns, key⟩ = none)
    (hfree : ((Engine.withClockAndLimits clock limits).run pre).leases.lookup ⟨ns, key⟩ = none)
    (calls : Nat → GetOrSet V) (actions : List (Action V)) :
    Protected ns key calls (· == .fresh)
      (.start ((Engine.withClockAndLimits clock limits).run pre)) actions := by
  intro hsmooth
  have hstart : Stage ns key calls []
      (System.start (V := V) ((Engine.withClockAndLimits clock limits).run pre)) :=
    .missing (Engine.record_eq_none_iff.mpr hnone) hfree fun _ => trivial
  have hstage := stage_run (Engine.inv_run clock limits pre) hstart hsmooth
  exact ⟨hstage.length_le_one, fun _ _ hv => hstage.returned hv⟩

/-- A call that stores the bytes of its factory, fresh for 10 ms and stale for another 100 ms. -/
def staleCall : GetOrSet Bytes where
  serializer := ⟨some, some⟩
  policy := {}
  ttlMs := some 10
  staleTtlMs := some 100
  tags := []
  cost := none

/-- The first caller fills the key, while the second one has to wait; both return. -/
def twoCallers : List (Action Bytes) :=
  [.begin 0 0, .startLease 0 0, .begin 1 0, .startLease 1 0, .factory 0 (some [1]),
    .completeLease 0 .asStored, .startLease 1 0]

/-- Both callers return, and the factory has been called at most once. -/
theorem protected_while_fresh_twoCallers :
    let s₀ : System Bytes := .start (Engine.withClockAndLimits ⟨fun _ => 0, 0⟩ default)
    let step := step "app" [107] fun _ => staleCall
    (Machine.run step s₀ twoCallers).callers 0 = .returned [1] ∧
      (Machine.run step s₀ twoCallers).callers 1 = .returned [1] ∧
      ((Machine.history step s₀ twoCallers).filterMap Event.invocation).length ≤ 1 := by
  have hsmooth : (Machine.history (step "app" [107] fun _ => staleCall)
      (.start (Engine.withClockAndLimits ⟨fun _ => 0, 0⟩ default)) twoCallers).all fun ev =>
        smooth "app" [107] (fun _ => staleCall) (· == .fresh) ev.before ev.action := by
    decide +kernel
  exact ⟨by decide +kernel, by decide +kernel, (protected_while_fresh ⟨fun _ => 0, 0⟩ default []
    "app" [107] (by decide +kernel) (by decide +kernel) (fun _ => staleCall) twoCallers
      (List.all_eq_true.mp hsmooth)).1⟩

/-- The key is filled at 0, and the second caller comes at 15. -/
def lateCaller : List (Action Bytes) :=
  [.begin 0 0, .startLease 0 0, .factory 0 (some [1]), .completeLease 0 .asStored, .begin 1 15,
    .startLease 1 15, .factory 1 (some [2])]

/-- A stale entry is not expired, but the caller that finds it is given a lease to refresh it and
calls its factory. -/
theorem not_protected_while_stale :
    ¬ Protected "app" [107] (fun _ => staleCall) (· != .expired)
      (.start (Engine.withClockAndLimits ⟨fun i => if i < 3 then 0 else 15, 0⟩ default))
      lateCaller := by
  intro h
  have hsmooth : (Machine.history (step "app" [107] fun _ => staleCall)
      (.start (Engine.withClockAndLimits ⟨fun i => if i < 3 then 0 else 15, 0⟩ default))
        lateCaller).all fun ev =>
        smooth "app" [107] (fun _ => staleCall) (· != .expired) ev.before ev.action := by
    decide +kernel
  have honce := (h (List.all_eq_true.mp hsmooth)).1
  revert honce
  decide +kernel

end Cachebox.Client
