import Cachebox.Engine.Eviction

/-!
# Where the stored entries go

Every entry that has been stored is still there, or has been replaced, deleted, invalidated, counted
as an eviction or counted as an expiration, or else a read has found it expired and removed it
without counting it. `remove_expired` and `evict_until_fits` count what they remove; `get_ref_inner`
and `start_lease` do not. So the statistics account for every entry exactly as long as no read comes
upon an expired one.
-/

namespace Cachebox

namespace EngineEvent

/-- The event stores an entry. -/
def stored (ev : EngineEvent) : Nat := if ev.written.isSome then 1 else 0

/-- The event stores an entry in the place of another one. -/
def replaced (ev : EngineEvent) : Nat :=
  match ev.written with
  | some (id, _) => if (ev.before.entries.lookup id).isSome then 1 else 0
  | none => 0

/-- The event is a `delete` that returns `true`. -/
def deleted (ev : EngineEvent) : Nat :=
  match ev.outcome with
  | .delete removed => if removed then 1 else 0
  | _ => 0

/-- The number an `invalidate_tag` returns. -/
def invalidated (ev : EngineEvent) : Nat :=
  match ev.outcome with
  | .invalidateTag removed => removed
  | _ => 0

/-- The entries that leave the engine in the event and are not counted by its statistics. -/
def reported (ev : EngineEvent) : Nat := ev.replaced + ev.deleted + ev.invalidated

end EngineEvent

namespace Engine

variable {e e' : Engine} {id : EntryId} {entry : Entry}

/-- The entry of `id` is expired at `nowMs`. -/
def ExpiredAt (e : Engine) (id : EntryId) (nowMs : UInt64) : Prop :=
  (e.entries.lookup id).map (entryStateAt · nowMs) = some .expired

instance (e : Engine) (id : EntryId) (nowMs : UInt64) : Decidable (e.ExpiredAt id nowMs) :=
  inferInstanceAs (Decidable (_ = _))

/-- One of the keys is expired at its reading, when they are read one after the other. -/
def AnyExpired (e : Engine) (ns : String) : Clock → List Bytes → Prop
  | _, [] => False
  | clock, key :: keys => e.ExpiredAt ⟨ns, key⟩ clock.nowMs ∨ e.AnyExpired ns clock.tick keys

/-- The operation comes upon an expired entry. `start_lease` leaves an expired entry alone while
there is a lease for it. -/
def ExpiresLazily (e : Engine) : Op → Prop
  | .get ns key | .getRef ns key | .getRefWithoutAccessUpdate ns key =>
    e.ExpiredAt ⟨ns, key⟩ e.clock.nowMs
  | .batchGet ns keys => e.AnyExpired ns e.clock keys
  | .startLease ns key _ =>
    (e.activeLease ⟨ns, key⟩).1 = none ∧
      e.ExpiredAt ⟨ns, key⟩ (e.activeLease ⟨ns, key⟩).2.clock.nowMs
  | _ => False

/-- The entries that are stored or have been counted as evicted or expired. -/
def settled (e : Engine) : Nat := e.len + e.stats.evictions + e.stats.expirations

@[simp] theorem settled_tick (e : Engine) : e.tick.settled = e.settled := rfl

@[simp] theorem settled_createLease (e : Engine) (id : EntryId) (leaseTtlMs : UInt64) :
    (e.createLease id leaseTtlMs).2.settled = e.settled := rfl

theorem len_removeEntry (e : Engine) (id : EntryId) :
    (e.removeEntry id).2.len + (if (e.entries.lookup id).isSome then 1 else 0) = e.len := by
  simp only [len, removeEntry_entries]
  cases hl : e.entries.lookup id with
  | none => simp [HashMap.erase_of_lookup_none hl]
  | some entry => simp [(HashMap.entries_perm_erase hl).length_eq]

theorem settled_removeEntry (e : Engine) (id : EntryId) :
    (e.removeEntry id).2.settled + (if (e.entries.lookup id).isSome then 1 else 0) =
      e.settled := by
  have hlen := len_removeEntry e id
  simp only [settled, removeEntry_stats]
  omega

theorem settled_recordAccess (e : Engine) (id : EntryId) :
    (e.recordAccess id).settled = e.settled := by
  unfold recordAccess
  split
  · rfl
  · next entry hl =>
    have hlen : (e.touch id entry).len = e.len :=
      (HashMap.length_insert _ _ _).trans (HashMap.entries_perm_erase hl).length_eq.symm
    simp only [settled, hlen]
    rfl

/-! ## The parts that count what they remove -/

theorem settled_removeExpired (e : Engine) (maxEntries : Nat) :
    (e.removeExpired maxEntries).2.settled = e.settled := by
  have hlen := removeExpired_len e maxEntries
  have hstats := removeExpired_stats e maxEntries
  simp only [settled, hstats]
  omega

theorem settled_evictUntilFits (o : IterOrder) (e : Engine) (incomingBytes : Nat) :
    (evictUntilFits o e incomingBytes).2.settled = e.settled := by
  fun_induction evictUntilFits o e incomingBytes with
  | case1 => rfl
  | case2 e _ id hlru e' heq evicted e'' hrec ih =>
    have hremoved := settled_removeEntry e id
    obtain ⟨entry, hl⟩ := leastRecentlyUsedEntry_stored hlru
    rw [heq, hl] at hremoved
    rw [hrec] at ih
    rw [ih, ← hremoved]
    simp only [settled, countEviction, len, Option.isSome_some, if_true]
    omega
  | case3 e _ id hlru e' heq =>
    have hstored := removeEntry_leastRecentlyUsedEntry hlru
    rw [heq] at hstored
    cases hstored
  | case4 => rfl

/-- Making room takes away the old entry of the key, and counts all else. -/
theorem settled_makeRoom (o : IterOrder) (e : Engine) (id : EntryId) (entryMemoryBytes : Nat) :
    (makeRoom o e id entryMemoryBytes).2.settled +
      (if (e.entries.lookup id).isSome then 1 else 0) = e.settled := by
  rw [makeRoom, settled_evictUntilFits, ← settled_removeEntry e id]
  congr 1
  unfold dropAndReclaim
  dsimp only
  split
  · exact settled_removeExpired _ _
  · rfl

theorem settled_storeEntry (hnone : e.entries.lookup id = none) :
    (e.storeEntry id entry).settled = e.settled + 1 := by
  have hlen : (e.storeEntry id entry).len = e.len + 1 := by
    simp only [len, storeEntry, HashMap.length_insert, HashMap.erase_of_lookup_none hnone]
  simp only [settled, hlen]
  simp only [storeEntry]
  omega

theorem settled_put_error (H : e.Inv) {o : IterOrder} {command : PutCommand} {error : PutError}
    (h : (e.put o command).1 = .error error) : (e.put o command).2.settled = e.settled := by
  refine (does_put_error H h).rel (R := fun e e' => e'.settled = e.settled) (fun _ => rfl)
    (fun h h' => h'.trans h) ?_
  rintro e _ rfl
  rfl

theorem settled_put_ok (H : e.Inv) {o : IterOrder} {command : PutCommand} {outcome : PutOutcome}
    (h : (e.put o command).1 = .ok outcome) :
    (e.put o command).2.settled +
      (if (e.entries.lookup command.id).isSome then 1 else 0) = e.settled + 1 := by
  rcases put_cases H o command with
    ⟨-, heq⟩ | ⟨-, -, heq⟩ | ⟨-, -, evicted, room, hroom, -, -, hnone, -, heq⟩
  · rw [heq] at h; cases h
  · rw [heq] at h; cases h
  have hsettled := settled_makeRoom o e.tick command.id
    (estimateEntryMemory command.id command.value command.tags)
  rw [hroom, tick_entries] at hsettled
  rw [heq, settled_storeEntry hnone, Nat.add_right_comm, hsettled]
  rfl

/-! ## The parts that do not -/

theorem expiredAt_of_lookup (hl : e.entries.lookup id = some entry) (nowMs : UInt64) :
    e.ExpiredAt id nowMs ↔ entryStateAt entry nowMs = .expired := by
  simp [ExpiredAt, hl]

theorem not_expiredAt_of_absent (hl : e.entries.lookup id = none) (nowMs : UInt64) :
    ¬ e.ExpiredAt id nowMs := by
  simp [ExpiredAt, hl]

theorem expiredAt_congr (h : e'.record id = e.record id) (nowMs : UInt64) :
    e'.ExpiredAt id nowMs ↔ e.ExpiredAt id nowMs := by
  cases hl : e.entries.lookup id with
  | none =>
    rw [record_eq_none_iff.mpr hl, record_eq_none_iff] at h
    exact iff_of_false (not_expiredAt_of_absent h nowMs) (not_expiredAt_of_absent hl nowMs)
  | some entry =>
    rw [record_of_lookup hl] at h
    obtain ⟨entry', hl', hrecord⟩ := Option.map_eq_some_iff.mp h
    rw [expiredAt_of_lookup hl, expiredAt_of_lookup hl', entryStateAt_congr hrecord]

theorem settled_getRefInner {R : Type} (e : Engine) (ns : String) (key : Bytes)
    (updateAccess : Bool) (map : GetOutcomeRef → R) :
    (e.getRefInner ns key updateAccess map).2.settled +
      (if e.ExpiredAt ⟨ns, key⟩ e.clock.nowMs then 1 else 0) = e.settled := by
  cases hl : e.entries.lookup ⟨ns, key⟩ with
  | none =>
    rw [if_neg (not_expiredAt_of_absent hl _)]
    simp only [getRefInner, tick_entries, hl]
    rfl
  | some entry =>
    have haccess : (if updateAccess then e.tick.recordAccess ⟨ns, key⟩ else e.tick).settled =
        e.settled := by
      split
      · exact settled_recordAccess e.tick _
      · rfl
    simp only [getRefInner, tick_entries, hl, touch_eq_recordAccess (e := e.tick) hl,
      expiredAt_of_lookup hl]
    cases hstate : entryStateAt entry e.clock.nowMs with
    | missing => exact absurd hstate (entryStateAt_ne_missing _ _)
    | expired =>
      have hremoved := settled_removeEntry e.tick ⟨ns, key⟩
      rw [tick_entries, hl] at hremoved
      exact hremoved
    | fresh | stale => exact haccess

theorem settled_get (e : Engine) (ns : String) (key : Bytes) :
    (e.get ns key).2.settled + (if e.ExpiredAt ⟨ns, key⟩ e.clock.nowMs then 1 else 0) =
      e.settled :=
  settled_getRefInner e ns key true _

/-- A read that does not come upon an expired entry leaves the records as they are. -/
theorem record_getRefInner_of_not_expired {R : Type} {ns : String} {key : Bytes}
    (updateAccess : Bool) (map : GetOutcomeRef → R) (h : ¬ e.ExpiredAt ⟨ns, key⟩ e.clock.nowMs)
    (id : EntryId) : (e.getRefInner ns key updateAccess map).2.record id = e.record id := by
  cases hl : e.entries.lookup ⟨ns, key⟩ with
  | none =>
    simp only [getRefInner, tick_entries, hl]
    rfl
  | some entry =>
    rw [expiredAt_of_lookup hl] at h
    have haccess : (if updateAccess then e.tick.recordAccess ⟨ns, key⟩ else e.tick).record id =
        e.record id := by
      split
      · exact record_recordAccess e.tick _ id
      · rfl
    simp only [getRefInner, tick_entries, hl, touch_eq_recordAccess (e := e.tick) hl]
    cases hstate : entryStateAt entry e.clock.nowMs with
    | missing => exact absurd hstate (entryStateAt_ne_missing _ _)
    | expired => exact absurd hstate h
    | fresh | stale => exact haccess

theorem anyExpired_congr (h : ∀ id, e'.record id = e.record id) (ns : String) (clock : Clock)
    (keys : List Bytes) : e'.AnyExpired ns clock keys ↔ e.AnyExpired ns clock keys := by
  induction keys generalizing clock with
  | nil => rfl
  | cons key keys ih => exact or_congr (expiredAt_congr (h _) _) (ih clock.tick)

theorem settled_batchGet (e : Engine) (ns : String) (keys : List Bytes) :
    ∃ lost, (e.batchGet ns keys).2.settled + lost = e.settled ∧
      (lost = 0 ↔ ¬ e.AnyExpired ns e.clock keys) := by
  induction keys generalizing e with
  | nil => exact ⟨0, rfl, iff_of_true rfl not_false⟩
  | cons key keys ih =>
    obtain ⟨lost, hrest, hlost⟩ := ih (e.get ns key).2
    have hget := settled_get e ns key
    refine ⟨lost + if e.ExpiredAt ⟨ns, key⟩ e.clock.nowMs then 1 else 0, ?_, ?_⟩
    · rw [← hget, ← hrest, Nat.add_assoc]
      rfl
    · rw [AnyExpired]
      split
      · next hexpired => exact iff_of_false (Nat.succ_ne_zero _) (fun h => h (.inl hexpired))
      · next hkept =>
        have hrecord : ∀ id, (e.get ns key).2.record id = e.record id :=
          record_getRefInner_of_not_expired true _ hkept
        rw [Nat.add_zero, hlost, get_clock, anyExpired_congr hrecord]
        simp [hkept]

theorem settled_activeLease (e : Engine) (id : EntryId) :
    (e.activeLease id).2.settled = e.settled := by
  unfold activeLease
  split <;> rfl

theorem settled_startLeaseForMissing (e : Engine) (id : EntryId) (leaseTtlMs : UInt64) :
    (e.startLeaseForMissing id leaseTtlMs).2.settled = e.settled := by
  rw [startLeaseForMissing_eq, ← settled_activeLease e id]
  dsimp only
  split <;> rfl

theorem settled_startLease (e : Engine) (ns : String) (key : Bytes) (leaseTtlMs : UInt64) :
    (e.startLease ns key leaseTtlMs).2.settled +
      (if (e.activeLease ⟨ns, key⟩).1 = none ∧
          e.ExpiredAt ⟨ns, key⟩ (e.activeLease ⟨ns, key⟩).2.clock.nowMs then 1 else 0) =
      e.settled := by
  have hactive := settled_activeLease e ⟨ns, key⟩
  cases hl : e.entries.lookup ⟨ns, key⟩ with
  | none =>
    rw [if_neg fun h => not_expiredAt_of_absent hl _ h.2, startLease_of_missing hl,
      settled_startLeaseForMissing]
    exact hactive
  | some entry =>
    have haccess : ((e.activeLease ⟨ns, key⟩).2.tick.recordAccess ⟨ns, key⟩).settled =
        e.settled := (settled_recordAccess _ _).trans hactive
    simp only [expiredAt_of_lookup hl]
    cases hstate : entryStateAt entry (e.activeLease ⟨ns, key⟩).2.clock.nowMs with
    | missing => exact absurd hstate (entryStateAt_ne_missing _ _)
    | fresh =>
      rw [startLease_of_fresh hl hstate]
      simpa using haccess
    | stale =>
      rw [startLease_of_stale hl hstate]
      dsimp only
      split
      · simpa using haccess
      · simpa using haccess
    | expired =>
      rw [startLease_of_expired hl hstate]
      cases hlease : (e.activeLease ⟨ns, key⟩).1 with
      | some lease => simpa using hactive
      | none =>
        have hremoved := settled_removeEntry (e.activeLease ⟨ns, key⟩).2.tick ⟨ns, key⟩
        rw [tick_entries, activeLease_entries, hl] at hremoved
        simpa [settled_startLeaseForMissing] using hremoved.trans hactive

/-! ## Runs -/

theorem settled_delete (e : Engine) (ns : String) (key : Bytes) :
    (e.delete ns key).2.settled + (if (e.delete ns key).1 then 1 else 0) = e.settled := by
  have hremoved := settled_removeEntry (e.dropLease ⟨ns, key⟩) ⟨ns, key⟩
  rw [← removeEntry_fst] at hremoved
  exact hremoved

theorem settled_invalidateTag (H : e.Inv) (o : IterOrder) (ns tag : String) :
    (e.invalidateTag o ns tag).2.settled + (e.invalidateTag o ns tag).1 = e.settled := by
  have hlen := (purges_invalidateTag H o ns tag).count
  simp only [settled, invalidateTag_stats]
  omega

theorem settled_completeLease_error (H : e.Inv) {o : IterOrder} {command : CompleteLeaseCommand}
    {error : CompleteLeaseError} (h : (e.completeLease o command).1 = .error error) :
    (e.completeLease o command).2.settled = e.settled := by
  refine (does_completeLease_error H h).rel (R := fun e e' => e'.settled = e.settled)
    (fun _ => rfl) (fun h h' => h'.trans h) ?_
  rintro e _ (rfl | rfl) <;> rfl

/-- The balance of an event that stores an entry. -/
theorem balance_of_write (ev : EngineEvent) (id : EntryId) (r : Record)
    (hwritten : ev.written = some (id, r)) (hdeleted : ev.deleted = 0)
    (hinvalidated : ev.invalidated = 0)
    (h : ev.after.settled + (if (ev.before.entries.lookup id).isSome then 1 else 0) =
      ev.before.settled + 1) :
    ev.before.settled + ev.stored = ev.after.settled + ev.reported := by
  simp only [EngineEvent.stored, EngineEvent.reported, EngineEvent.replaced, hwritten, hdeleted,
    hinvalidated, Option.isSome_some, if_true]
  exact h.symm

/-- The balance of an event in which a write is rejected. -/
theorem balance_of_rejected (ev : EngineEvent) (hwritten : ev.written = none)
    (hdeleted : ev.deleted = 0) (hinvalidated : ev.invalidated = 0)
    (h : ev.after.settled = ev.before.settled) :
    ev.before.settled + ev.stored = ev.after.settled + ev.reported := by
  simp only [EngineEvent.stored, EngineEvent.reported, EngineEvent.replaced, hwritten, hdeleted,
    hinvalidated, h]
  rfl

/-- The balance of one operation. -/
theorem settled_exec (H : e.Inv) (op : Op) :
    let ev : EngineEvent := Machine.event exec e op
    ∃ lost, e.settled + ev.stored = (e.exec op).2.settled + ev.reported + lost ∧
      (lost = 0 ↔ ¬ e.ExpiresLazily op) := by
  intro ev
  have hlost : ∀ {after lost : Nat}, after + lost = e.settled →
      e.settled + 0 = after + 0 + lost := fun h => h.symm
  cases op with
  | get ns key => exact ⟨_, hlost (settled_get e ns key), by simp [ExpiresLazily]⟩
  | getRef ns key =>
    exact ⟨_, hlost (settled_getRefInner e ns key true id), by simp [ExpiresLazily]⟩
  | getRefWithoutAccessUpdate ns key =>
    exact ⟨_, hlost (settled_getRefInner e ns key false id), by simp [ExpiresLazily]⟩
  | batchGet ns keys =>
    obtain ⟨lost, hsettled, hiff⟩ := settled_batchGet e ns keys
    exact ⟨lost, hlost hsettled, hiff⟩
  | startLease ns key leaseTtlMs =>
    exact ⟨_, hlost (settled_startLease e ns key leaseTtlMs), by simp [ExpiresLazily]⟩
  | reclaimExpiredBudget maxEntries =>
    exact ⟨0, hlost (settled_removeExpired e maxEntries), iff_of_true rfl not_false⟩
  | delete ns key =>
    have hdelete := settled_delete e ns key
    refine ⟨0, ?_, iff_of_true rfl not_false⟩
    show e.settled + 0 = (e.delete ns key).2.settled +
      (0 + (if (e.delete ns key).1 then 1 else 0) + 0) + 0
    omega
  | invalidateTag o ns tag =>
    have hinvalidate := settled_invalidateTag H o ns tag
    refine ⟨0, ?_, iff_of_true rfl not_false⟩
    show e.settled + 0 = (e.invalidateTag o ns tag).2.settled +
      (0 + 0 + (e.invalidateTag o ns tag).1) + 0
    omega
  | put o command =>
    refine ⟨0, ?_, iff_of_true rfl not_false⟩
    cases hresult : (e.put o command).1 with
    | ok outcome =>
      refine balance_of_write ev command.id (command.record e.clock.nowMs) ?_ rfl rfl
        (settled_put_ok H hresult)
      simp [ev, EngineEvent.written, Machine.event, exec, hresult]
    | error error =>
      refine balance_of_rejected ev ?_ rfl rfl (settled_put_error H hresult)
      simp [ev, EngineEvent.written, Machine.event, exec, hresult]
  | completeLease o command =>
    refine ⟨0, ?_, iff_of_true rfl not_false⟩
    cases hresult : (e.completeLease o command).1 with
    | ok outcome =>
      have hput := completeLease_ok hresult
      have hsettled := settled_put_ok (H.tick.dropLease command.id) (congrArg Prod.fst hput)
      rw [hput] at hsettled
      refine balance_of_write ev command.id (command.toPut.record e.clock.tick.nowMs) ?_ rfl rfl
        hsettled
      simp [ev, EngineEvent.written, Machine.event, exec, hresult]
    | error error =>
      refine balance_of_rejected ev ?_ rfl rfl (settled_completeLease_error H hresult)
      simp [ev, EngineEvent.written, Machine.event, exec, hresult]

/-- The stored entries of a run are accounted for by what is left, by what the operations have
returned, and by the statistics. -/
def Balanced (history : List EngineEvent) (e : Engine) : Prop :=
  (history.map EngineEvent.stored).sum =
    e.len + (history.map EngineEvent.replaced).sum + (history.map EngineEvent.deleted).sum +
      (history.map EngineEvent.invalidated).sum + e.stats.evictions + e.stats.expirations

instance (history : List EngineEvent) (e : Engine) : Decidable (Balanced history e) :=
  inferInstanceAs (Decidable (_ = _))

/-- What is missing in the balance of a run is what the reads have removed. -/
theorem settled_run (clock : Clock) (limits : EngineLimits) (ops : List Op) :
    let history := Machine.history exec (withClockAndLimits clock limits) ops
    ∃ lost, (history.map EngineEvent.stored).sum =
        ((withClockAndLimits clock limits).run ops).settled +
          (history.map EngineEvent.reported).sum + lost ∧
      (lost = 0 ↔ ∀ ev ∈ history, ¬ ev.before.ExpiresLazily ev.action) := by
  refine (Machine.history_induction (R := fun h (e : Engine) => e.Inv ∧
      ∃ lost, (h.map EngineEvent.stored).sum =
          e.settled + (h.map EngineEvent.reported).sum + lost ∧
        (lost = 0 ↔ ∀ ev ∈ h, ¬ ev.before.ExpiresLazily ev.action))
    ⟨inv_withClockAndLimits clock limits, 0, rfl, iff_of_true rfl (List.forall_mem_nil _)⟩
    (fun h e op ih => ⟨ih.1.exec op, ?_⟩) ops).2
  obtain ⟨H, lost, hsum, hiff⟩ := ih
  obtain ⟨lost', hstep, hiff'⟩ := settled_exec H op
  refine ⟨lost' + lost, ?_, ?_⟩
  · simp only [List.map_cons, List.sum_cons]
    omega
  · rw [Nat.add_eq_zero_iff, hiff, hiff', List.forall_mem_cons]
    rfl

/-- **The statistics account for every entry exactly if no read comes upon an expired one.** In
every run the stored entries are the ones that are left, replaced, deleted, invalidated, evicted and
expired if and only if no read and no `start_lease` has removed an entry because it was expired. -/
theorem balanced_iff (clock : Clock) (limits : EngineLimits) (ops : List Op) :
    let history := Machine.history exec (withClockAndLimits clock limits) ops
    Balanced history ((withClockAndLimits clock limits).run ops) ↔
      ∀ ev ∈ history, ¬ ev.before.ExpiresLazily ev.action := by
  intro history
  obtain ⟨lost, hsum, hiff⟩ := settled_run clock limits ops
  have hreported : (history.map EngineEvent.reported).sum =
      (history.map EngineEvent.replaced).sum + (history.map EngineEvent.deleted).sum +
        (history.map EngineEvent.invalidated).sum := by
    rw [← List.sum_map_add, ← List.sum_map_add]
    rfl
  change (history.map EngineEvent.stored).sum =
    _ + (history.map EngineEvent.reported).sum + lost at hsum
  rw [hreported, settled] at hsum
  rw [← hiff, Balanced]
  omega

/-- An entry with a TTL of 10 is put at 0 and read at 11. The read removes it, and nothing counts
it. -/
theorem not_balanced_after_get :
    let ops : List Op := [.put .asStored (timedPut 1 (some ⟨10⟩)), .get "app" [1]]
    let clock : Clock := ⟨fun i => if i = 0 then 0 else 11, 0⟩
    let e := (withClockAndLimits clock default).run ops
    ¬ Balanced (Machine.history exec (withClockAndLimits clock default) ops) e ∧
      e.len = 0 ∧ e.stats = ⟨0, 0⟩ := by
  decide +kernel

end Engine
end Cachebox
