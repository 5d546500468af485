import Cachebox.Sharded.Limits
import Cachebox.Sharded.Linearizable

/-!
# What callers can rely on under concurrency

In the order of operations on shards that explains an interleaving of calls
(`Cachebox.Sharded.Linearizable`), each shard has a sequential run. So a value that any of the
callers reads is the one of the last accepted write of its key in that order, and a lease that any
of them completes is the latest one granted for its key.
-/

namespace Cachebox
namespace Call

/-! ## What an operation on a shard reports -/

/-- The key, the value and the tags of a write that was accepted. -/
def accepted : Op → Outcome → Option (EntryId × Bytes × List String)
  | .put _ command, .put (.ok _) => some (command.id, command.value, command.tags)
  | .completeLease _ command, .completeLease (.ok _) =>
    some (command.id, command.value, command.tags)
  | _, _ => none

/-- What a read of one key reports about it. -/
def reported : Op → Outcome → Option (EntryId × Seen)
  | .get ns key, .get outcome => some (⟨ns, key⟩, outcome.seen)
  | .getRef ns key, .getRef outcome => some (⟨ns, key⟩, outcome.seen)
  | .getRefWithoutAccessUpdate ns key, .getRef outcome => some (⟨ns, key⟩, outcome.seen)
  | .startLease ns key _, .startLease outcome => some (⟨ns, key⟩, outcome.seen)
  | _, _ => none

/-- The key and the token of a lease that was granted. -/
def grantedLease : Op → Outcome → Option (EntryId × String)
  | .startLease ns key _, .startLease (.leaseGranted token _) => some (⟨ns, key⟩, token)
  | _, _ => none

/-- The key and the token of a lease that was completed. -/
def completedLease : Op → Outcome → Option (EntryId × String)
  | .completeLease _ command, .completeLease (.ok _) => some (command.id, command.leaseToken)
  | _, _ => none

theorem entryId?_of_accepted {op : Op} {outcome : Outcome} {id : EntryId} {value : Bytes}
    {tags : List String} (h : accepted op outcome = some (id, value, tags)) :
    entryId? op = some id := by
  unfold accepted at h
  split at h
  · cases h
    rfl
  · cases h
    rfl
  · cases h

theorem entryId?_of_reported {op : Op} {outcome : Outcome} {id : EntryId} {seen : Seen}
    (h : reported op outcome = some (id, seen)) : entryId? op = some id := by
  unfold reported at h
  split at h
  all_goals cases h
  all_goals rfl

theorem entryId?_of_grantedLease {op : Op} {outcome : Outcome} {id : EntryId} {token : String}
    (h : grantedLease op outcome = some (id, token)) : entryId? op = some id := by
  unfold grantedLease at h
  split at h
  · cases h
    rfl
  · cases h

theorem entryId?_of_completedLease {op : Op} {outcome : Outcome} {id : EntryId} {token : String}
    (h : completedLease op outcome = some (id, token)) : entryId? op = some id := by
  unfold completedLease at h
  split at h
  · cases h
    rfl
  · cases h

/-! ## The same in the events of an engine -/

theorem accepted_of_written {ev : EngineEvent} {id : EntryId} {r : Record}
    (h : ev.written = some (id, r)) :
    accepted ev.action ev.outcome = some (id, r.value, r.tags) := by
  obtain ⟨_, action, outcome, _⟩ := ev
  simp only [EngineEvent.written] at h
  split at h
  · cases h
    rfl
  · cases h
    rfl
  · cases h

theorem written_of_accepted {ev : EngineEvent} {id : EntryId} {value : Bytes} {tags : List String}
    (h : accepted ev.action ev.outcome = some (id, value, tags)) :
    ∃ r, ev.written = some (id, r) := by
  obtain ⟨_, action, outcome, _⟩ := ev
  simp only [accepted] at h
  split at h
  · cases h
    exact ⟨_, rfl⟩
  · cases h
    exact ⟨_, rfl⟩
  · cases h

theorem exists_read_of_reported {ev : EngineEvent} {id : EntryId} {seen : Seen}
    (h : reported ev.action ev.outcome = some (id, seen)) :
    ∃ read ∈ ev.reads, read.id = id ∧ read.seen = seen := by
  obtain ⟨_, action, outcome, _⟩ := ev
  simp only [reported] at h
  split at h
  all_goals cases h
  all_goals exact ⟨_, List.mem_singleton_self _, rfl, rfl⟩

theorem timedMap_writes_eq_some {ev : EngineEvent} {id : EntryId} {r : Record} :
    timedMap.writes ev id = some r ↔ ev.written = some (id, r) := by
  simp only [timedMap]
  split
  · next id' r' hwritten =>
    rw [hwritten]
    split
    · next hid => simp [hid]
    · next hid => simpa using fun h => absurd h.symm hid
  · next hwritten => simp [hwritten]

theorem grantedLease_of_granted {ev : EngineEvent} {id : EntryId} {lease : Lease}
    (h : ev.granted = some (id, lease)) :
    grantedLease ev.action ev.outcome = some (id, lease.token) := by
  obtain ⟨_, action, outcome, _⟩ := ev
  simp only [EngineEvent.granted] at h
  split at h
  · cases h
    rfl
  · cases h

theorem granted_of_grantedLease {ev : EngineEvent} {id : EntryId} {token : String}
    (h : grantedLease ev.action ev.outcome = some (id, token)) :
    ∃ lease, ev.granted = some (id, lease) := by
  obtain ⟨_, action, outcome, _⟩ := ev
  simp only [grantedLease] at h
  split at h
  · cases h
    exact ⟨_, rfl⟩
  · cases h

/-! ## Reads -/

variable {n : Nat} [NeZero n]

/-- **A read returns the last write.** However the calls of any number of threads interleave, they
are explained by an order of operations on shards in which the value that a read reports is the one
of an accepted write of its key before it, and in between no other write of the key was accepted,
the key was not deleted, and no tag of that write was invalidated in the shard. -/
theorem concurrent_reads_return_last_write (hash : String → Bytes → Nat) (clocks : Fin n → Clock)
    (limits : EngineLimits) (actions : List (Pool.Action Op)) :
    ∃ log, Explains hash (.withClockAndLimits clocks limits) actions log ∧
      ∀ older i op outcome newer id stale value,
        Atomic.effects log = older ++ ((i, op), outcome) :: newer →
        reported op outcome = some (id, .value stale value) →
        ∃ before write written tags since,
          older = before ++ ((i, write), written) :: since ∧
          accepted write written = some (id, value, tags) ∧
          ∀ j op' outcome', ((j, op'), outcome') ∈ since →
            (∀ value' tags', accepted op' outcome' ≠ some (id, value', tags')) ∧
            op' ≠ .delete id.ns id.key ∧
            ∀ o, ∀ tag ∈ tags, (j, op') ≠ (i, .invalidateTag o id.ns tag) := by
  obtain ⟨log, h⟩ := exists_explains hash (.withClockAndLimits clocks limits) actions
  refine ⟨log, h, fun older i op outcome newer id stale value hsplit hreported => ?_⟩
  obtain ⟨htrace, houtcome⟩ := h.event_of_split hsplit
  -- the read is an event of the engine of the shard, which reports the record it stores
  have hread := @exists_read_of_reported (Machine.event Engine.exec
    ((Engine.withClockAndLimits (clocks i) (limits.forShard n)).run
      ((older.filterMap (onShard? i)).map Prod.fst)) op) id (.value stale value)
    (hreported ▸ congrArg (reported op) houtcome)
  obtain ⟨read, hread, rfl, hseen⟩ := hread
  have hsound := Engine.sound_exec _ op read hread
  rw [Read.Sound, hseen] at hsound
  obtain ⟨r, hrecord, hvalue, -⟩ := hsound
  -- the stored record is the last one written and not cleared
  obtain ⟨since, href⟩ := (Engine.tracks_run (clocks i) (limits.forShard n)
    ((older.filterMap (onShard? i)).map Prod.fst)).stored read.id r hrecord
  obtain ⟨ev, before, hhistory, hwrites, hsince⟩ := timedMap.reference_eq_some href
  obtain ⟨before', since', holder, hmem⟩ := exists_split_of_history htrace hhistory
  refine ⟨before', ev.action, ev.outcome, r.tags, since', holder, ?_, ?_⟩
  · rw [accepted_of_written (timedMap_writes_eq_some.mp hwrites), hvalue]
  · intro j op' outcome' hop'
    have hhere : entryId? op' = some read.id → j = i := fun hid =>
      @Explains.shard_eq n _ _ _ _ _ h ((j, op'), outcome') ((i, op), outcome) _
        (by simp [hsplit, holder, hop']) (by simp [hsplit]) hid (entryId?_of_reported hreported)
    refine ⟨fun value' tags' haccepted => ?_, ?_, ?_⟩
    · cases hhere (entryId?_of_accepted haccepted)
      obtain ⟨ev', hev', rfl, rfl⟩ := hmem _ _ hop'
      obtain ⟨r', hr'⟩ := written_of_accepted haccepted
      rw [← timedMap_writes_eq_some, (hsince ev' hev').1] at hr'
      cases hr'
    · rintro rfl
      cases hhere rfl
      obtain ⟨ev', hev', haction, -⟩ := hmem _ _ hop'
      refine (hsince ev' hev').2 ?_
      show ev'.Clears read.id r
      rw [EngineEvent.Clears, haction]
    · intro o tag htag heq
      cases heq
      obtain ⟨ev', hev', haction, -⟩ := hmem _ _ hop'
      refine (hsince ev' hev').2 ?_
      show ev'.Clears read.id r
      rw [EngineEvent.Clears, haction]
      exact ⟨rfl, htag⟩

theorem concurrent_reads_return_last_write_racingPuts :
    ∃ log, Explains (n := 2) (fun _ _ => 1)
        (.withClockAndLimits (fun _ => ⟨fun _ => 5, 0⟩) default) racingPuts log ∧
      ∀ older i op outcome newer id stale value,
        Atomic.effects log = older ++ ((i, op), outcome) :: newer →
        reported op outcome = some (id, .value stale value) →
        ∃ write written tags, ((i, write), written) ∈ older ∧
          accepted write written = some (id, value, tags) := by
  obtain ⟨log, hexplains, hreads⟩ := concurrent_reads_return_last_write (n := 2) (fun _ _ => 1)
    (fun _ => ⟨fun _ => 5, 0⟩) default racingPuts
  refine ⟨log, hexplains, fun older i op outcome newer id stale value hsplit hreported => ?_⟩
  obtain ⟨before, write, written, tags, since, rfl, haccepted, -⟩ :=
    hreads older i op outcome newer id stale value hsplit hreported
  exact ⟨write, written, tags, by simp, haccepted⟩

/-! ## Leases -/

/-- **A completed lease is the latest one of its key.** However the calls of any number of threads
interleave, they are explained by an order of operations on shards in which a completion that
succeeds presents the token of the latest grant for its key, and between the two no other caller has
completed a lease of the key or deleted it. -/
theorem concurrent_completions_use_latest_grant (hash : String → Bytes → Nat)
    (clocks : Fin n → Clock) (limits : EngineLimits) (actions : List (Pool.Action Op)) :
    ∃ log, Explains hash (.withClockAndLimits clocks limits) actions log ∧
      ∀ older i op outcome newer id token,
        Atomic.effects log = older ++ ((i, op), outcome) :: newer →
        completedLease op outcome = some (id, token) →
        ∃ before start granted since,
          older = before ++ ((i, start), granted) :: since ∧
          grantedLease start granted = some (id, token) ∧
          ∀ j op' outcome', ((j, op'), outcome') ∈ since →
            (∀ token', grantedLease op' outcome' ≠ some (id, token')) ∧
            (∀ token', completedLease op' outcome' ≠ some (id, token')) ∧
            op' ≠ .delete id.ns id.key := by
  obtain ⟨log, h⟩ := exists_explains hash (.withClockAndLimits clocks limits) actions
  refine ⟨log, h, fun older i op outcome newer id token hsplit hcompleted => ?_⟩
  obtain ⟨htrace, houtcome⟩ := h.event_of_split hsplit
  -- the completion is the last event of the engine of the shard
  obtain ⟨since, grant, before, lease, hhistory, hgranted, rfl, -, hsince⟩ :=
    @Engine.grant_of_completed id (clocks i) (limits.forShard n)
      ((older.filterMap (onShard? i)).map Prod.fst ++ [op]) _ [] _ token
      (Machine.history_concat ..) (hcompleted ▸ congrArg (completedLease op) houtcome)
  obtain ⟨before', since', holder, hmem⟩ := exists_split_of_history htrace hhistory
  refine ⟨before', grant.action, grant.outcome, since', holder, grantedLease_of_granted hgranted,
    fun j op' outcome' hop' => ?_⟩
  have hhere : entryId? op' = some id → j = i := fun hid =>
    @Explains.shard_eq n _ _ _ _ _ h ((j, op'), outcome') ((i, op), outcome) _
      (by simp [hsplit, holder, hop']) (by simp [hsplit]) hid
      (entryId?_of_completedLease hcompleted)
  refine ⟨fun token' htoken' => ?_, fun token' htoken' => ?_, ?_⟩
  · cases hhere (entryId?_of_grantedLease htoken')
    obtain ⟨ev, hev, rfl, rfl⟩ := hmem _ _ hop'
    obtain ⟨lease', hlease'⟩ := granted_of_grantedLease htoken'
    exact (hsince ev hev).1 lease' hlease'
  · cases hhere (entryId?_of_completedLease htoken')
    obtain ⟨ev, hev, rfl, rfl⟩ := hmem _ _ hop'
    exact (hsince ev hev).2 (.inr (.inl ⟨token', htoken'⟩))
  · rintro rfl
    cases hhere rfl
    obtain ⟨ev, hev, haction, -⟩ := hmem _ _ hop'
    exact (hsince ev hev).2 (.inl haction)

/-- Two threads ask for a lease of one key, and the one that gets it completes it. -/
def racingLeases : List (Pool.Action Op) :=
  [.call 0 (.startLease "app" [1] 10), .call 1 (.startLease "app" [1] 10), .advance 1, .advance 0,
    .call 1 (.completeLease .asStored
      { ns := "app", key := [1], leaseToken := "lease-0", value := [119], ttl := none
        staleTtl := none, tags := [], cost := none }), .advance 1]

theorem concurrent_completions_use_latest_grant_racingLeases :
    (Machine.history (Pool.step ofOp (advance fun _ _ => 1))
        ⟨ShardedEngine.withClockAndLimits (n := 2) (fun _ => ⟨fun _ => 5, 0⟩) default, ∅⟩
        racingLeases).filterMap (·.outcome) =
      [.completeLease (.ok ⟨0⟩), .startLease .leaseDenied,
        .startLease (.leaseGranted "lease-0" none)] ∧
    ∃ log, Explains (n := 2) (fun _ _ => 1)
        (.withClockAndLimits (fun _ => ⟨fun _ => 5, 0⟩) default) racingLeases log ∧
      ∀ older i op outcome newer id token,
        Atomic.effects log = older ++ ((i, op), outcome) :: newer →
        completedLease op outcome = some (id, token) →
        ∃ start granted, ((i, start), granted) ∈ older ∧
          grantedLease start granted = some (id, token) := by
  obtain ⟨log, hexplains, hleases⟩ := concurrent_completions_use_latest_grant (n := 2)
    (fun _ _ => 1) (fun _ => ⟨fun _ => 5, 0⟩) default racingLeases
  refine ⟨by decide +kernel, log, hexplains,
    fun older i op outcome newer id token hsplit hcompleted => ?_⟩
  obtain ⟨before, start, granted, since, rfl, hgranted, -⟩ :=
    hleases older i op outcome newer id token hsplit hcompleted
  exact ⟨start, granted, by simp, hgranted⟩

/-! ## Memory -/

/-- **Memory stays within the shares, and puts are decided by their sizes alone.** In every state
that concurrent calls lead to, the indexes and the accounts of every shard agree with its entries
and the shards together are charged no more than their shares. A put is accepted exactly when its
value and its entry fit, whatever the other callers do, and is never refused for lack of memory. -/
theorem concurrent_puts_decided_by_size (hash : String → Bytes → Nat) (clocks : Fin n → Clock)
    (limits : EngineLimits) (actions : List (Pool.Action Op)) :
    let s := (Machine.run (Pool.step ofOp (advance hash))
      ⟨ShardedEngine.withClockAndLimits clocks limits, ∅⟩ actions).shared
    (∀ i, (s.shards i).RepInv) ∧ s.memoryUsedBytes ≤ n * divCeil limits.maxMemoryBytes n ∧
      ∃ log, Explains hash (.withClockAndLimits clocks limits) actions log ∧
        ∀ i o command outcome, ((i, .put o command), outcome) ∈ Atomic.effects log →
          ((∃ stored, outcome = .put (.ok stored)) ↔
            command.value.length ≤ limits.maxValueBytes ∧
              estimateEntryMemory command.id command.value command.tags ≤
                divCeil limits.maxMemoryBytes n) ∧
          ∀ required used max, outcome ≠ .put (.error (.insufficientMemory required used max)) := by
  intro s
  obtain ⟨log, h⟩ := exists_explains hash (.withClockAndLimits clocks limits) actions
  have hrun : ∀ i, ∃ ops, s.shards i =
      (Engine.withClockAndLimits (clocks i) (limits.forShard n)).run ops :=
    fun i => ⟨_, (h.sequential i).1⟩
  refine ⟨fun i => ?_, ?_, log, h, fun i o command outcome hmem => ?_⟩
  · obtain ⟨ops, hops⟩ := hrun i
    rw [hops]
    exact (Engine.inv_run ..).repInv
  · have hshard : ∀ i ∈ Finset.univ,
        (s.shards i).memoryUsedBytes ≤ divCeil limits.maxMemoryBytes n := by
      intro i _
      obtain ⟨ops, hops⟩ := hrun i
      have hcapped := (Engine.inv_run (clocks i) (limits.forShard n) ops).capped
      rw [Engine.limits_run, ← hops] at hcapped
      exact hcapped
    have hsum := Finset.sum_le_card_nsmul Finset.univ _ _ hshard
    rwa [Finset.card_fin, smul_eq_mul, Fin.sum_univ_def] at hsum
  · obtain ⟨older, newer, hsplit⟩ := List.append_of_mem hmem
    obtain ⟨-, rfl⟩ := h.event_of_split hsplit
    have H := Engine.inv_run (clocks i) (limits.forShard n)
      ((older.filterMap (onShard? i)).map Prod.fst)
    have hanswer := Engine.put_isOk_iff H o command
    rw [Engine.limits_run] at hanswer
    refine ⟨Iff.trans ⟨?_, ?_⟩ hanswer, fun required used max heq => ?_⟩
    · rintro ⟨stored, heq⟩
      exact ⟨stored, Outcome.put.inj heq⟩
    · rintro ⟨stored, heq⟩
      exact ⟨stored, congrArg Outcome.put heq⟩
    · obtain ⟨herror, -⟩ | ⟨herror, -⟩ := Engine.put_error H (Outcome.put.inj heq)
      · cases herror
      · cases herror

theorem concurrent_puts_decided_by_size_racingPuts :
    (Machine.run (Pool.step ofOp (advance fun _ _ => 1))
      ⟨ShardedEngine.withClockAndLimits (n := 2) (fun _ => ⟨fun _ => 5, 0⟩) ⟨1000, 100⟩, ∅⟩
      racingPuts).shared.memoryUsedBytes ≤ 1000 :=
  (concurrent_puts_decided_by_size (n := 2) (fun _ _ => 1) (fun _ => ⟨fun _ => 5, 0⟩) ⟨1000, 100⟩
    racingPuts).2.1

end Call
end Cachebox
