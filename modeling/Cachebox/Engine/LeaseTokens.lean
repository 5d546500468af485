import Cachebox.Engine.TimedMap

/-!
# Lease tokens

A token is minted from the counter of accesses, which never decreases, and a lease gets into the
engine only by being granted. So as long as the counter has not reached its maximum, the tokens of
different grants differ, and the lease that a completion finds is the one of the latest grant for
its key. The leases are a lossy store of the grants (`outstandingLeases`): a lease is given up by a
deletion of its key, by its completion, and by a put that replaces an entry of its key, but not by a
put that finds no entry to replace.
-/

namespace Cachebox

/-- The token of a lease, minted from the counter of accesses. -/
def leaseToken (nextAccess : UInt64) : String := "lease-" ++ toString nextAccess.toNat

theorem leaseToken_injective : Function.Injective leaseToken := by
  intro k k' h
  have hdigits : Nat.toDigits 10 k.toNat = Nat.toDigits 10 k'.toNat :=
    String.ofList_injective ((String.append_right_inj "lease-").mp h)
  have hnat := congrArg (Nat.ofDigitChars 10 · 0) hdigits
  simpa [Nat.ofDigitChars_toDigits, UInt64.toNat_inj] using hnat

namespace EngineEvent

/-- The lease that an event grants. Its time runs from the last reading of the call. -/
def granted (ev : EngineEvent) : Option (EntryId × Lease) :=
  match ev.action, ev.outcome with
  | .startLease ns key leaseTtlMs, .startLease (.leaseGranted token _) =>
    some (⟨ns, key⟩, ⟨token, ev.after.lastReading.saturatingAdd leaseTtlMs⟩)
  | _, _ => none

/-- The key and the token of a successful completion. -/
def completed (ev : EngineEvent) : Option (EntryId × String) :=
  match ev.action, ev.outcome with
  | .completeLease _ command, .completeLease (.ok _) => some (command.id, command.leaseToken)
  | _, _ => none

def Deletes (ev : EngineEvent) (id : EntryId) : Prop := ev.action = .delete id.ns id.key

/-- The key of a successful put. -/
def putKey (ev : EngineEvent) : Option EntryId :=
  match ev.action, ev.outcome with
  | .put _ command, .put (.ok _) => some command.id
  | _, _ => none

/-- No lease of `id` survives the event, unless the event grants it. A put drops the lease together
with the entry that it replaces. -/
def Releases (ev : EngineEvent) (id : EntryId) : Prop :=
  ev.Deletes id ∨ (∃ token, ev.completed = some (id, token)) ∨
    ev.putKey = some id ∧ (ev.before.entries.lookup id ≠ none ∨ ev.before.leases.lookup id = none)

end EngineEvent

/-- The leases that have been granted and not been given up, as a function of the events so far. -/
def outstandingLeases : LossyMap.Spec EntryId Lease EngineEvent where
  writes ev id :=
    match ev.granted with
    | some (id', lease) => if id = id' then some lease else none
    | none => none
  clears ev id _ := ev.Releases id

theorem outstandingLeases_writes_eq_some {ev : EngineEvent} {id : EntryId} {lease : Lease} :
    outstandingLeases.writes ev id = some lease ↔ ev.granted = some (id, lease) := by
  simp only [outstandingLeases]
  split
  · next id' lease' hgranted =>
    rw [hgranted]
    split
    · next hid => simp [hid]
    · next hid => simpa using fun h => absurd h.symm hid
  · next hgranted => simp [hgranted]

namespace Engine
variable {e e' : Engine} {id : EntryId} {lease : Lease}

/-! ## The counter of accesses -/

theorem nextAccess_le_apply (e : Engine) (m : Mutation) :
    e.nextAccess ≤ (m.apply e).nextAccess := by
  cases m with
  | remove id =>
    simp only [Mutation.apply, removeEntry]
    split <;> exact UInt64.le_refl _
  | access id =>
    simp only [Mutation.apply, recordAccess]
    split
    · exact UInt64.le_refl _
    · exact UInt64.le_saturatingAdd ..
  | store | grantLease => exact UInt64.le_saturatingAdd ..
  | tick | dropLease | setExpiryIndex | hideTag | setStats => exact UInt64.le_refl _

/-- The counter of accesses never decreases. -/
theorem Does.nextAccess_le {P : Mutation → Prop} (h : Does P e e') :
    e.nextAccess ≤ e'.nextAccess :=
  h.rel (R := fun e e' => e.nextAccess ≤ e'.nextAccess) (fun _ => UInt64.le_refl _)
    UInt64.le_trans fun e m _ => nextAccess_le_apply e m

/-! ## Where a lease comes from -/

theorem lease_apply {m : Mutation} (hm : ¬ m.IsGrant)
    (h : (m.apply e).leases.lookup id = some lease) : e.leases.lookup id = some lease := by
  cases m with
  | grantLease => exact absurd trivial hm
  | remove id' =>
    simp only [Mutation.apply, removeEntry] at h
    split at h
    · exact h
    · rw [HashMap.lookup_erase'] at h
      split at h
      · cases h
      · exact h
  | dropLease id' =>
    simp only [Mutation.apply, dropLease] at h
    rw [HashMap.lookup_erase'] at h
    split at h
    · cases h
    · exact h
  | access id' =>
    rw [Mutation.apply, recordAccess_leases] at h
    exact h
  | tick | store | setExpiryIndex | hideTag | setStats => exact h

/-- Without a grant every lease has been there before. -/
theorem Does.lookup_leases (hdoes : Does (¬ ·.IsGrant) e e')
    (h : e'.leases.lookup id = some lease) : e.leases.lookup id = some lease := by
  induction hdoes with
  | refl => exact h
  | step _ hm ih => exact ih (lease_apply hm h)

theorem Does.lookup_leases_eq_none (hdoes : Does (¬ ·.IsGrant) e e')
    (h : e.leases.lookup id = none) : e'.leases.lookup id = none := by
  cases hl : e'.leases.lookup id with
  | none => rfl
  | some lease =>
    rw [hdoes.lookup_leases hl] at h
    cases h

/-- An operation grants no lease, or it grants one and does nothing after that. -/
theorem grant_cases (e : Engine) (op : Op) :
    (EngineEvent.granted (Machine.event exec e op) = none ∧ Does (¬ ·.IsGrant) e (e.exec op).2) ∨
      ∃ id leaseTtlMs e₀, op = .startLease id.ns id.key leaseTtlMs ∧ Does (¬ ·.IsGrant) e e₀ ∧
        (e.exec op).2 = (e₀.createLease id leaseTtlMs).2 ∧
        EngineEvent.granted (Machine.event exec e op) =
          some (id, ⟨leaseToken e₀.nextAccess, e₀.clock.nowMs.saturatingAdd leaseTtlMs⟩) := by
  have hother : (∀ id, ¬ op.Grants id) → Does (¬ ·.IsGrant) e (e.exec op).2 := by
    intro hop
    refine (exec_does e op).mono fun m hm => ?_
    cases m with
    | grantLease id leaseTtlMs => exact absurd hm (hop id)
    | _ => exact not_false
  cases op with
  | startLease ns key leaseTtlMs =>
    simp only [EngineEvent.granted, Machine.event, exec, Prod.map]
    generalize hresult : e.startLease ns key leaseTtlMs = result
    cases hresult ▸ asks_startLease e ns key leaseTtlMs with
    | @refused outcome e₀ hno hdoes =>
      refine .inl ⟨?_, hdoes⟩
      cases outcome with
      | leaseGranted => cases hno
      | _ => rfl
    | granted staleValue hdoes => exact .inr ⟨⟨ns, key⟩, leaseTtlMs, _, rfl, hdoes, rfl, rfl⟩
  | _ => exact .inl ⟨rfl, hother fun _ => not_false⟩

/-! ## Where a lease ends -/

/-- A put that replaces an entry drops the lease of its key. -/
theorem lookup_leases_put {o : IterOrder} {command : PutCommand} {outcome : PutOutcome}
    (H : e.Inv) (hok : (e.put o command).1 = .ok outcome)
    (hstored : e.entries.lookup command.id ≠ none) :
    (e.put o command).2.leases.lookup command.id = none := by
  rcases put_cases H o command with
    ⟨-, heq⟩ | ⟨-, -, heq⟩ | ⟨-, -, evicted, room, hroom, -, -, -, -, heq⟩ <;> rw [heq] at hok ⊢
  · cases hok
  · cases hok
  obtain ⟨entry, hl⟩ := Option.ne_none_iff_exists'.mp hstored
  have hremoved : (e.tick.removeEntry command.id).2.leases.lookup command.id = none := by
    simp [removeEntry, hl]
  have hdoes : Does (¬ ·.IsGrant) (e.tick.removeEntry command.id).2 (makeRoom o e.tick command.id
      (estimateEntryMemory command.id command.value command.tags)).2 :=
    .makeRoom not_false (fun _ => not_false) (fun _ => not_false) (fun _ => not_false) o _ _ _
  rw [hroom] at hdoes
  exact hdoes.lookup_leases_eq_none hremoved

theorem lookup_leases_completeLease {o : IterOrder} {command : CompleteLeaseCommand}
    {outcome : PutOutcome} (hok : (e.completeLease o command).1 = .ok outcome) :
    (e.completeLease o command).2.leases.lookup command.id = none := by
  have hput := completeLease_ok hok
  have hdropped : (e.tick.dropLease command.id).leases.lookup command.id = none :=
    AList.lookup_erase ..
  have hdoes : Does (¬ ·.IsGrant) (e.tick.dropLease command.id)
      ((e.tick.dropLease command.id).put o command.toPut).2 :=
    .put not_false (fun _ => not_false) (fun _ => not_false) (fun _ => not_false) o _
      (fun _ => not_false) _
  rw [hput] at hdoes
  exact hdoes.lookup_leases_eq_none hdropped

theorem lookup_leases_of_releases {op : Op} (H : e.Inv)
    (h : EngineEvent.Releases (Machine.event exec e op) id) (hlease : e.leases.lookup id ≠ none) :
    (e.exec op).2.leases.lookup id = none := by
  rcases h with hdeletes | ⟨token, hcompleted⟩ | ⟨hputs, hstored | hnone⟩
  · cases (show op = .delete id.ns id.key from hdeletes)
    have hdropped : (e.dropLease id).leases.lookup id = none := AList.lookup_erase ..
    exact (Does.single (m := .remove id) not_false).lookup_leases_eq_none hdropped
  · cases op with
    | completeLease o command =>
      cases hok : (e.completeLease o command).1 with
      | error => simp [EngineEvent.completed, Machine.event, exec, hok] at hcompleted
      | ok outcome =>
        simp only [EngineEvent.completed, Machine.event, exec, Prod.map, hok, Option.some.injEq,
          Prod.mk.injEq] at hcompleted
        rw [← hcompleted.1]
        exact lookup_leases_completeLease hok
    | _ => cases hcompleted
  · cases op with
    | put o command =>
      cases hok : (e.put o command).1 with
      | error => simp [EngineEvent.putKey, Machine.event, exec, hok] at hputs
      | ok outcome =>
        simp only [EngineEvent.putKey, Machine.event, exec, Prod.map, hok] at hputs
        cases hputs
        exact lookup_leases_put H hok hstored
    | _ => cases hputs
  · exact absurd hnone hlease

/-! ## The leases of a run -/

/-- Every operation acts on the leases as a lossy store of the grants. -/
theorem effect_leases (H : e.Inv) (op : Op) :
    LossyMap.Effect outstandingLeases (fun _ _ _ => True) (Machine.event exec e op)
      (e.leases.lookup ·) ((e.exec op).2.leases.lookup ·) := by
  -- away from a grant, leases can only disappear
  have hkept : ∀ {e₀ : Engine} {id lease}, Does (¬ ·.IsGrant) e e₀ →
      e.leases.lookup id = some lease →
      e₀.leases.lookup id = some lease ∨ e₀.leases.lookup id = none ∧ True := by
    intro e₀ id lease hdoes hb
    cases hl : e₀.leases.lookup id with
    | none => exact .inr ⟨rfl, trivial⟩
    | some lease' => exact .inl ((hdoes.lookup_leases hl).symm.trans hb)
  have hreleased : ∀ id lease, e.leases.lookup id = some lease →
      EngineEvent.Releases (Machine.event exec e op) id →
      (e.exec op).2.leases.lookup id = none := by
    intro id lease hb hc
    exact lookup_leases_of_releases H hc (by rw [hb]; nofun)
  rcases grant_cases e op with ⟨hgranted, hdoes⟩ | ⟨id, leaseTtlMs, e₀, -, hdoes, hafter, hgranted⟩
  · refine ⟨fun k v hw => ?_, fun k _ hb => hdoes.lookup_leases_eq_none hb,
      fun k v _ hb hc => hreleased k v hb hc, fun k v _ hb _ => hkept hdoes hb⟩
    rw [outstandingLeases_writes_eq_some, hgranted] at hw
    cases hw
  · have hlookup : ∀ k, (e.exec op).2.leases.lookup k =
        if k = id then
          some ⟨leaseToken e₀.nextAccess, e₀.clock.nowMs.saturatingAdd leaseTtlMs⟩
        else e₀.leases.lookup k := by
      intro k
      rw [hafter]
      exact HashMap.lookup_insert' ..
    have hne : ∀ k, outstandingLeases.writes (Machine.event exec e op) k = none → k ≠ id := by
      rintro k hw rfl
      rw [outstandingLeases_writes_eq_some.mpr hgranted] at hw
      cases hw
    refine ⟨fun k v hw => ?_, fun k hw hb => ?_, fun k v _ hb hc => hreleased k v hb hc,
      fun k v hw hb _ => ?_⟩
    · rw [outstandingLeases_writes_eq_some, hgranted] at hw
      cases hw
      exact (hlookup id).trans (if_pos rfl)
    · exact (hlookup k).trans ((if_neg (hne k hw)).trans (hdoes.lookup_leases_eq_none hb))
    · rw [hlookup k, if_neg (hne k hw)]
      exact hkept hdoes hb

theorem tracks_leases (clock : Clock) (limits : EngineLimits) (ops : List Op) :
    LossyMap.Tracks outstandingLeases (fun _ _ _ => True)
      (Machine.history exec (withClockAndLimits clock limits) ops)
      (((withClockAndLimits clock limits).run ops).leases.lookup ·) := by
  have hpair := Machine.history_induction (R := fun h (e : Engine) =>
      e.Inv ∧ LossyMap.Tracks outstandingLeases (fun _ _ _ => True) h (e.leases.lookup ·))
    ⟨inv_withClockAndLimits clock limits, LossyMap.tracks_nil⟩
    (fun _ e op H => ⟨H.1.exec op, H.2.cons (effect_leases H.1 op)⟩) ops
  exact hpair.2

/-- A stored lease is the one of the most recent grant for its key, and nothing has released it
since. -/
theorem exists_grant {clock : Clock} {limits : EngineLimits} {ops : List Op}
    (h : ((withClockAndLimits clock limits).run ops).leases.lookup id = some lease) :
    ∃ since, ∃ grant : EngineEvent, ∃ before,
      Machine.history exec (withClockAndLimits clock limits) ops = since ++ grant :: before ∧
        grant.granted = some (id, lease) ∧
        ∀ ev : EngineEvent, ev ∈ since →
          (∀ lease', ev.granted ≠ some (id, lease')) ∧ ¬ ev.Releases id := by
  obtain ⟨since, href⟩ := (tracks_leases clock limits ops).stored id lease h
  obtain ⟨grant, before, hsplit, hw, hsince⟩ := LossyMap.Spec.reference_eq_some href
  refine ⟨since, grant, before, hsplit, outstandingLeases_writes_eq_some.mp hw,
    fun ev hev => ⟨fun lease' hgranted => ?_, (hsince ev hev).2⟩⟩
  have hnone := (hsince ev hev).1
  rw [outstandingLeases_writes_eq_some.mpr hgranted] at hnone
  cases hnone

/-! ## The tokens of a run -/

/-- The tokens of the grants among the events. -/
def tokens (history : List EngineEvent) : List String :=
  (history.filterMap EngineEvent.granted).map (·.2.token)

theorem mem_tokens {history : List EngineEvent} {token : String} :
    token ∈ tokens history ↔
      ∃ ev ∈ history, ∃ id lease, ev.granted = some (id, lease) ∧ lease.token = token := by
  simp only [tokens, List.mem_map, List.mem_filterMap]
  constructor
  · rintro ⟨⟨id, lease⟩, ⟨ev, hev, hgranted⟩, rfl⟩
    exact ⟨ev, hev, id, lease, hgranted, rfl⟩
  · rintro ⟨ev, hev, id, lease, hgranted, rfl⟩
    exact ⟨(id, lease), ⟨ev, hev, hgranted⟩, rfl⟩

@[simp] theorem tokens_append (newer older : List EngineEvent) :
    tokens (newer ++ older) = tokens newer ++ tokens older := by
  simp [tokens]

/-- The tokens have been minted below the counter, each one once. -/
structure Minted (tokens : List String) (nextAccess : UInt64) : Prop where
  below : ∀ token ∈ tokens, ∃ k < nextAccess, token = leaseToken k
  distinct : tokens.Nodup

theorem Minted.mono {tokens : List String} {k k' : UInt64} (h : Minted tokens k) (hle : k ≤ k') :
    Minted tokens k' := by
  refine ⟨fun token hmem => ?_, h.distinct⟩
  obtain ⟨j, hj, htoken⟩ := h.below token hmem
  exact ⟨j, UInt64.lt_of_lt_of_le hj hle, htoken⟩

theorem Minted.cons {tokens : List String} {k k' : UInt64} (h : Minted tokens k) (hlt : k < k') :
    Minted (leaseToken k :: tokens) k' := by
  refine ⟨List.forall_mem_cons.mpr ⟨⟨k, hlt, rfl⟩, (h.mono (UInt64.le_of_lt hlt)).below⟩,
    List.nodup_cons.mpr ⟨fun hmem => ?_, h.distinct⟩⟩
  obtain ⟨j, hj, htoken⟩ := h.below _ hmem
  cases leaseToken_injective htoken
  exact UInt64.lt_irrefl _ hj

theorem minted_exec {history : List EngineEvent} (h : Minted (tokens history) e.nextAccess)
    {op : Op} (hcount : (e.exec op).2.nextAccess.toNat < UInt64.maxNat) :
    Minted (tokens (Machine.event exec e op :: history)) (e.exec op).2.nextAccess := by
  rcases grant_cases e op with ⟨hgranted, hdoes⟩ | ⟨id, leaseTtlMs, e₀, -, hdoes, hafter, hgranted⟩
  · simp only [tokens, List.filterMap_cons, hgranted]
    exact h.mono hdoes.nextAccess_le
  · have hnext : (e.exec op).2.nextAccess = e₀.nextAccess.saturatingAdd 1 := by
      rw [hafter]
      rfl
    simp only [tokens, List.filterMap_cons, hgranted, List.map_cons]
    rw [hnext] at hcount ⊢
    exact (h.mono hdoes.nextAccess_le).cons (UInt64.lt_saturatingAdd_one hcount)

theorem minted_run {clock : Clock} {limits : EngineLimits} {ops : List Op}
    (hcount : ((withClockAndLimits clock limits).run ops).nextAccess.toNat < UInt64.maxNat) :
    Minted (tokens (Machine.history exec (withClockAndLimits clock limits) ops))
      ((withClockAndLimits clock limits).run ops).nextAccess := by
  refine Machine.history_induction (R := fun h (e : Engine) =>
      e.nextAccess.toNat < UInt64.maxNat → Minted (tokens h) e.nextAccess)
    (fun _ => ⟨nofun, List.nodup_nil⟩) (fun h e op ih hcount => ?_) ops hcount
  have hle := (exec_does e op).nextAccess_le
  rw [UInt64.le_iff_toNat_le] at hle
  exact minted_exec (ih (Nat.lt_of_le_of_lt hle hcount)) hcount

/-- A token is not granted a second time. -/
theorem not_mem_tokens {since before : List EngineEvent} {grant : EngineEvent}
    (h : (tokens (since ++ grant :: before)).Nodup) (hgranted : grant.granted = some (id, lease)) :
    lease.token ∉ tokens since ∧ lease.token ∉ tokens before := by
  simp only [tokens, List.filterMap_append, List.filterMap_cons, hgranted, List.map_append,
    List.map_cons] at h
  rw [List.nodup_middle, List.nodup_cons, List.mem_append] at h
  exact not_or.mp h.1

/-! ## Completions -/

section
variable {o : IterOrder} {command : CompleteLeaseCommand}

/-- A completion that is not turned away for its token finds an active lease with that token. -/
theorem lease_of_completeLease (h : (e.completeLease o command).1 ≠ .error .invalidLeaseToken) :
    ∃ lease, e.leases.lookup command.id = some lease ∧ lease.token = command.leaseToken ∧
      e.clock.nowMs ≤ lease.expiresAtMs := by
  cases hlease : e.leases.lookup command.id with
  | none => simp [completeLease, activeLease, hlease] at h
  | some lease =>
    rw [completeLease_of_some hlease] at h
    split_ifs at h with htime htoken
    · exact ⟨lease, rfl, htoken, htime⟩
    · exact absurd rfl h
    · exact absurd rfl h

theorem entries_of_invalidLeaseToken
    (h : (e.completeLease o command).1 = .error .invalidLeaseToken) :
    (e.completeLease o command).2.entries = e.entries := by
  cases hlease : e.leases.lookup command.id with
  | none =>
    simp only [completeLease, activeLease, hlease]
    rfl
  | some lease =>
    rw [completeLease_of_some hlease] at h ⊢
    split_ifs at h ⊢
    · cases hput : ((e.tick.dropLease command.id).put o command.toPut).1 with
      | error => simp [Prod.map, hput, Except.mapError] at h
      | ok => simp [Prod.map, hput, Except.mapError] at h
    · rfl
    · rfl

/-- A completion in time, with the token of the stored lease and a value within the limits. -/
theorem completeLease_accepted {lease : Lease} (H : e.Inv) (o : IterOrder)
    (command : CompleteLeaseCommand) (hlease : e.leases.lookup command.id = some lease)
    (htoken : lease.token = command.leaseToken)
    (htime : e.clock.nowMs ≤ lease.expiresAtMs)
    (hvalue : command.value.length ≤ e.limits.maxValueBytes)
    (hmemory : estimateEntryMemory command.id command.value command.tags ≤
      e.limits.maxMemoryBytes) :
    ∃ outcome, (e.completeLease o command).1 = .ok outcome ∧
      (e.completeLease o command).2.record command.id =
        some (command.toPut.record e.clock.tick.nowMs) := by
  have H' := H.tick.dropLease command.id
  obtain ⟨outcome, hput⟩ := (put_isOk_iff H' o command.toPut).mpr ⟨hvalue, hmemory⟩
  have hok : (e.completeLease o command).1 = .ok outcome := by
    rw [completeLease_of_some hlease, if_pos htime, if_pos htoken]
    simp [Prod.map, hput, Except.mapError]
  have hrecord := (record_put_ok H' hput).1
  rw [completeLease_ok hok] at hrecord
  exact ⟨outcome, hok, hrecord⟩

theorem lease_of_completed {op : Op} {token : String}
    (h : EngineEvent.completed (Machine.event exec e op) = some (id, token)) :
    ∃ lease, e.leases.lookup id = some lease ∧ lease.token = token ∧
      e.clock.nowMs ≤ lease.expiresAtMs := by
  cases op with
  | completeLease o command =>
    cases hok : (e.completeLease o command).1 with
    | error => simp [EngineEvent.completed, Machine.event, exec, hok] at h
    | ok outcome =>
      simp only [EngineEvent.completed, Machine.event, exec, Prod.map, hok, Option.some.injEq,
        Prod.mk.injEq] at h
      obtain ⟨rfl, rfl⟩ := h
      exact lease_of_completeLease (by rw [hok]; simp)
  | _ => cases h

end

section
variable {clock : Clock} {limits : EngineLimits} {ops : List Op} {ev : EngineEvent}
  {later earlier : List EngineEvent} {token : String}

/-- A completion presents the token of the most recent grant for its key, in time, and nothing has
released the key since. -/
theorem grant_of_completed
    (hsplit : Machine.history exec (withClockAndLimits clock limits) ops = later ++ ev :: earlier)
    (h : ev.completed = some (id, token)) :
    ∃ since, ∃ grant : EngineEvent, ∃ before lease, earlier = since ++ grant :: before ∧
      grant.granted = some (id, lease) ∧ lease.token = token ∧
      ev.before.clock.nowMs ≤ lease.expiresAtMs ∧
      ∀ ev' : EngineEvent, ev' ∈ since →
        (∀ lease', ev'.granted ≠ some (id, lease')) ∧ ¬ ev'.Releases id := by
  obtain ⟨pre, op, -, -, rfl, rfl⟩ := Machine.history_split _ hsplit
  obtain ⟨lease, hlookup, htoken, htime⟩ := lease_of_completed h
  obtain ⟨since, grant, before, heq, hgranted, hsince⟩ := exists_grant hlookup
  exact ⟨since, grant, before, lease, heq, hgranted, htoken, htime, hsince⟩

/-- A completed token has been granted before, for the same key. -/
theorem granted_of_completed
    (hsplit : Machine.history exec (withClockAndLimits clock limits) ops = later ++ ev :: earlier)
    (h : ev.completed = some (id, token)) :
    ∃ grant ∈ earlier, ∃ lease, grant.granted = some (id, lease) ∧ lease.token = token := by
  obtain ⟨since, grant, before, lease, rfl, hgranted, htoken, -⟩ := grant_of_completed hsplit h
  exact ⟨grant, by simp, lease, hgranted, htoken⟩

/-- As long as nothing releases the key of a grant, its token is not completed, for any key. -/
theorem not_completed {since before : List EngineEvent} {grant : EngineEvent}
    (hsplit : Machine.history exec (withClockAndLimits clock limits) ops =
      later ++ (since ++ grant :: before))
    (hdistinct : (tokens (since ++ grant :: before)).Nodup)
    (hgranted : grant.granted = some (id, lease)) (hsince : ∀ ev ∈ since, ¬ ev.Releases id) :
    ∀ ev ∈ since ++ grant :: before, ∀ id', ev.completed ≠ some (id', lease.token) := by
  obtain ⟨hafter, hbefore⟩ := not_mem_tokens hdistinct hgranted
  intro ev hev id' hcompleted
  rcases List.mem_append.mp hev with hmem | hmem
  · obtain ⟨newer, older, rfl⟩ := List.append_of_mem hmem
    have hsplit' : Machine.history exec (withClockAndLimits clock limits) ops =
        (later ++ newer) ++ ev :: (older ++ grant :: before) := by
      simpa using hsplit
    -- the completion follows a grant of the same token, which can only be this one
    obtain ⟨grant', hgrant', lease', hgranted', htoken⟩ := granted_of_completed hsplit' hcompleted
    rcases List.mem_append.mp hgrant' with hold | hold
    · refine hafter (mem_tokens.mpr ⟨grant', ?_, id', lease', hgranted', htoken⟩)
      exact List.mem_append_right _ (List.mem_cons_of_mem _ hold)
    rcases List.mem_cons.mp hold with rfl | hold
    · cases hgranted.symm.trans hgranted'
      exact hsince ev hmem (.inr (.inl ⟨_, hcompleted⟩))
    · exact hbefore (mem_tokens.mpr ⟨grant', hold, id', lease', hgranted', htoken⟩)
  rcases List.mem_cons.mp hmem with rfl | hmem
  · unfold EngineEvent.granted at hgranted
    unfold EngineEvent.completed at hcompleted
    split at hgranted
    · next haction _ =>
      rw [haction] at hcompleted
      cases hcompleted
    · cases hgranted
  · obtain ⟨newer, older, rfl⟩ := List.append_of_mem hmem
    have hsplit' : Machine.history exec (withClockAndLimits clock limits) ops =
        (later ++ (since ++ grant :: newer)) ++ ev :: older := by
      simpa using hsplit
    obtain ⟨grant', hold, lease', hgranted', htoken⟩ := granted_of_completed hsplit' hcompleted
    refine hbefore (mem_tokens.mpr ⟨grant', ?_, id', lease', hgranted', htoken⟩)
    exact List.mem_append_right _ (List.mem_cons_of_mem _ hold)

end

/-- **Lease tokens are single-use.** As long as the counter of accesses, which starts at 0, has not
reached its maximum, the tokens of all grants are distinct. A successful completion presents the
token of the most recent grant for its key, at a reading of the clock that is not past the expiry of
that grant, and the token has not been completed before nor the key deleted since the grant. The
events of a run are listed latest first. -/
theorem lease_tokens_single_use (clock : Clock) (limits : EngineLimits) (ops : List Op)
    (hcount : ((withClockAndLimits clock limits).run ops).nextAccess.toNat < 2 ^ 64 - 1) :
    let history : List EngineEvent := Machine.history exec (withClockAndLimits clock limits) ops
    (tokens history).Nodup ∧
      ∀ later ev earlier id token, history = later ++ ev :: earlier →
        ev.completed = some (id, token) →
        ∃ since, ∃ grant : EngineEvent, ∃ before lease, earlier = since ++ grant :: before ∧
          grant.granted = some (id, lease) ∧ lease.token = token ∧
          (∀ ev' ∈ since, ∀ lease', ev'.granted ≠ some (id, lease')) ∧
          ev.before.clock.nowMs ≤ lease.expiresAtMs ∧
          (∀ ev' ∈ earlier, ∀ id', ev'.completed ≠ some (id', token)) ∧
          ∀ ev' ∈ since, ¬ ev'.Deletes id := by
  intro history
  have hdistinct : (tokens history).Nodup := (minted_run hcount).distinct
  refine ⟨hdistinct, fun later ev earlier id token hsplit hcompleted => ?_⟩
  obtain ⟨since, grant, before, lease, rfl, hgranted, htoken, htime, hsince⟩ :=
    grant_of_completed hsplit hcompleted
  rw [List.append_cons] at hsplit
  rw [hsplit, tokens_append] at hdistinct
  have hunused := not_completed hsplit hdistinct.of_append_right hgranted
    fun ev' h => (hsince ev' h).2
  rw [htoken] at hunused
  exact ⟨since, grant, before, lease, rfl, hgranted, htoken, fun ev' h => (hsince ev' h).1, htime,
    hunused, fun ev' h hdeletes => (hsince ev' h).2 (.inl hdeletes)⟩

/-- The completion of the first lease of a run, for the key that `stalePut` writes. -/
def firstCompletion : CompleteLeaseCommand :=
  { ns := "app", key := [107], leaseToken := "lease-0", value := [119], ttl := none
    staleTtl := none, tags := [], cost := none }

/-- A grant at 5 for 100 ms, and its completion at 5. -/
theorem lease_tokens_single_use_completed :
    let e₀ := withClockAndLimits ⟨fun _ => 5, 0⟩ default
    let grant : EngineEvent := Machine.event exec e₀ (.startLease "app" [107] 100)
    let completion : EngineEvent :=
      Machine.event exec grant.after (.completeLease .asStored firstCompletion)
    completion.completed = some (⟨"app", [107]⟩, "lease-0") ∧
      ∃ since, ∃ grant' : EngineEvent, ∃ before lease, [grant] = since ++ grant' :: before ∧
        grant'.granted = some (⟨"app", [107]⟩, lease) ∧ lease.token = "lease-0" ∧
        completion.before.clock.nowMs ≤ lease.expiresAtMs := by
  intro e₀ grant completion
  have hcompleted : completion.completed = some (⟨"app", [107]⟩, "lease-0") := by decide +kernel
  obtain ⟨since, grant', before, lease, heq, hgranted, htoken, -, htime, -⟩ :=
    (lease_tokens_single_use ⟨fun _ => 5, 0⟩ default
      [.startLease "app" [107] 100, .completeLease .asStored firstCompletion]
      (by decide +kernel)).2 [] completion [grant] _ _ rfl hcompleted
  exact ⟨hcompleted, since, grant', before, lease, heq, hgranted, htoken, htime⟩

/-! ## Writes and outstanding leases -/

/-- The write `w` is later than the event at the cut when something before the write meets `P` and
nothing before the cut does. -/
theorem mem_of_split {α : Type*} {P : α → Prop} {since before newer older : List α} {cut w : α}
    (h : since ++ cut :: before = newer ++ w :: older) (hbefore : ∀ x ∈ before, ¬ P x)
    (holder : ∃ x ∈ older, P x) : w ∈ since := by
  induction since generalizing newer with
  | nil =>
    obtain ⟨x, hx, hP⟩ := holder
    cases newer with
    | nil =>
      cases h
      exact absurd hP (hbefore x hx)
    | cons y newer =>
      cases h
      exact absurd hP (hbefore x (by simp [hx]))
  | cons ev since ih =>
    cases newer with
    | nil =>
      cases h
      exact List.mem_cons_self
    | cons y newer => exact List.mem_cons_of_mem _ (ih (List.cons.inj h).2)

/-- A lease granted before `write`, a successful put or a deletion of its key, can no longer be
completed after it: the completion is turned away and leaves all entries alone. -/
def WriteSupersedes (clock : Clock) (limits : EngineLimits) (pre : List Op) (write : Op)
    (mid : List Op) (o : IterOrder) (command : CompleteLeaseCommand) : Prop :=
  let e₀ := withClockAndLimits clock limits
  let e₁ := e₀.run pre
  let e₂ := (e₁.exec write).2.run mid
  let ev : EngineEvent := Machine.event exec e₁ write
  ev.putKey = some command.id ∨ ev.Deletes command.id →
    command.leaseToken ∈ tokens (Machine.history exec e₀ pre) →
    (e₂.completeLease o command).1 = .error .invalidLeaseToken ∧
      (e₂.completeLease o command).2.entries = e₂.entries

/-- **A write supersedes the outstanding leases of its key**, as long as the counter of accesses has
not reached its maximum, when the write is a deletion, when it finds an entry of the key to replace,
or when no lease is stored for the key. -/
theorem writeSupersedes_of_entry (clock : Clock) (limits : EngineLimits) (pre : List Op)
    (write : Op) (mid : List Op) (o : IterOrder) (command : CompleteLeaseCommand)
    (hstate :
      let e₁ := (withClockAndLimits clock limits).run pre
      write = .delete command.id.ns command.id.key ∨ e₁.entries.lookup command.id ≠ none ∨
        e₁.leases.lookup command.id = none)
    (hcount : ((withClockAndLimits clock limits).run (pre ++ write :: mid)).nextAccess.toNat <
      2 ^ 64 - 1) :
    WriteSupersedes clock limits pre write mid o command := by
  unfold WriteSupersedes
  intro e₀ e₁ e₂ ev hwrite htoken
  have hrun : e₂ = e₀.run (pre ++ write :: mid) := by
    simp [e₂, e₁, Machine.run, List.foldl_append]
  have hreleases : ev.Releases command.id := by
    rcases hwrite with hputs | hdeletes
    · rcases hstate with hdelete | hkey
      · exact .inl hdelete
      · exact .inr (.inr ⟨hputs, hkey⟩)
    · exact .inl hdeletes
  suffices h : (e₂.completeLease o command).1 = .error .invalidLeaseToken from
    ⟨h, entries_of_invalidLeaseToken h⟩
  by_contra hother
  obtain ⟨lease, hlookup, hsame, -⟩ := lease_of_completeLease hother
  rw [hrun] at hlookup
  obtain ⟨since, grant, before, hsplit, hgranted, hsince⟩ := exists_grant hlookup
  have hdistinct := (minted_run hcount).distinct
  rw [hsplit] at hdistinct
  obtain ⟨-, hbefore⟩ := not_mem_tokens hdistinct hgranted
  -- the grant is older than the write, so the write has released the lease
  rw [Machine.history_append_cons] at hsplit
  obtain ⟨ev', hev', id', lease', hgranted', htoken'⟩ := mem_tokens.mp htoken
  have hmem : ev ∈ since := by
    refine mem_of_split (P := fun ev : EngineEvent =>
        ∃ id' lease', ev.granted = some (id', lease') ∧ lease'.token = lease.token) hsplit.symm ?_
      ⟨ev', hev', id', lease', hgranted', htoken'.trans hsame.symm⟩
    rintro x hx ⟨id', lease', hgranted', htoken'⟩
    exact hbefore (mem_tokens.mpr ⟨x, hx, id', lease', hgranted', htoken'⟩)
  exact (hsince ev hmem).2 hreleases

/-- A lease is granted on a stale entry, and the entry is replaced before the completion. -/
theorem writeSupersedes_of_entry_stale :
    WriteSupersedes staleClock default [.put .asStored stalePut, .startLease "app" [107] 100]
        (.put .asStored stalePut) [] .asStored { firstCompletion with leaseToken := "lease-2" } ∧
      "lease-2" ∈ tokens (Machine.history exec (withClockAndLimits staleClock default)
        [.put .asStored stalePut, .startLease "app" [107] 100]) :=
  ⟨writeSupersedes_of_entry _ _ _ _ _ _ _ (.inr (.inl (by decide +kernel))) (by decide +kernel),
    by decide +kernel⟩

/-- A lease is granted on a missing key and the key is put; the completion still finds the lease and
overwrites the value that was put. -/
theorem not_writeSupersedes_missing_key :
    ¬ WriteSupersedes ⟨fun _ => 5, 0⟩ default [.startLease "app" [107] 100]
      (.put .asStored stalePut) [] .asStored firstCompletion := by
  intro h
  have hinvalid := (h (.inl (by decide +kernel)) (by decide +kernel)).1
  revert hinvalid
  decide +kernel

end Engine
end Cachebox
