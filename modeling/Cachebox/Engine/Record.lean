import Cachebox.Engine.Lease
import Cachebox.Engine.Safety

/-!
# What the operations do to the stored records

The record of an entry is what a reader can learn from it: its value, its tags and its two windows.
An operation that neither writes nor clears a key leaves its record alone, or drops it once a
reading of the clock has reached the removable time (`Ages`), or evicts it. The eviction loop
returns the number of its victims.
-/

namespace Cachebox

structure Record where
  value : Bytes
  tags : List String
  expiresAtMs : Option UInt64
  staleUntilMs : Option UInt64
  deriving DecidableEq, Repr

def Entry.record (entry : Entry) : Record :=
  ⟨entry.value, entry.tags, entry.expiresAtMs, entry.staleUntilMs⟩

/-- The time from which the record may be reclaimed. -/
def Record.removableAtMs (r : Record) : Option UInt64 :=
  Cachebox.removableAtMs r.expiresAtMs r.staleUntilMs

/-- The record has no TTL, or its TTL has not run out. -/
def Record.FreshAt (r : Record) (nowMs : UInt64) : Prop :=
  ∀ expiresAt, r.expiresAtMs = some expiresAt → nowMs ≤ expiresAt

def Record.StaleAt (r : Record) (nowMs : UInt64) : Prop :=
  ∃ expiresAt staleUntil, r.expiresAtMs = some expiresAt ∧ r.staleUntilMs = some staleUntil ∧
    expiresAt < nowMs ∧ nowMs ≤ staleUntil

theorem Record.StaleAt.not_freshAt {r : Record} {nowMs : UInt64} (h : r.StaleAt nowMs) :
    ¬ r.FreshAt nowMs := by
  obtain ⟨expiresAt, -, hexpires, -, hlt, -⟩ := h
  exact fun hfresh => UInt64.not_lt.mpr (hfresh expiresAt hexpires) hlt

section
variable {entry : Entry} {nowMs : UInt64}

theorem entryStateAt_fresh (h : entryStateAt entry nowMs = .fresh) :
    entry.record.FreshAt nowMs := by
  intro expiresAt hexpires
  have hexpires' : entry.expiresAtMs = some expiresAt := hexpires
  cases hstale : entry.staleUntilMs <;>
    simp only [entryStateAt, hexpires', hstale] at h <;> split_ifs at h <;> assumption

theorem entryStateAt_stale (h : entryStateAt entry nowMs = .stale) :
    entry.record.StaleAt nowMs := by
  cases hexpires : entry.expiresAtMs with
  | none => simp [entryStateAt, hexpires] at h
  | some expiresAt =>
    cases hstale : entry.staleUntilMs with
    | none =>
      simp only [entryStateAt, hexpires, hstale] at h
      split_ifs at h
    | some staleUntil =>
      simp only [entryStateAt, hexpires, hstale] at h
      split_ifs at h with hfresh hle
      exact ⟨expiresAt, staleUntil, hexpires, hstale, UInt64.not_le.mp hfresh, hle⟩

/-- The access stamp does not matter to the state of an entry. -/
theorem entryStateAt_congr {entry' : Entry} (h : entry'.record = entry.record) (nowMs : UInt64) :
    entryStateAt entry' nowMs = entryStateAt entry nowMs := by
  simp only [Entry.record, Record.mk.injEq] at h
  obtain ⟨-, -, hexpires, hstale⟩ := h
  simp only [entryStateAt, hexpires, hstale]

/-- An entry is expired only after its removable time. -/
theorem entryStateAt_expired (h : entryStateAt entry nowMs = .expired) :
    ∃ t, entry.record.removableAtMs = some t ∧ t ≤ nowMs := by
  cases hexpires : entry.expiresAtMs with
  | none => simp [entryStateAt, hexpires] at h
  | some expiresAt =>
    cases hstale : entry.staleUntilMs with
    | none =>
      simp only [entryStateAt, hexpires, hstale] at h
      split_ifs at h with hfresh
      refine ⟨expiresAt, ?_, UInt64.le_of_lt (UInt64.not_le.mp hfresh)⟩
      simp [Record.removableAtMs, Entry.record, removableAtMs, hexpires, hstale]
    | some staleUntil =>
      simp only [entryStateAt, hexpires, hstale] at h
      split_ifs at h with hfresh hle
      refine ⟨staleUntil, ?_, UInt64.le_of_lt (UInt64.not_le.mp hle)⟩
      simp [Record.removableAtMs, Entry.record, removableAtMs, hstale]

end

namespace Engine

variable {e e' e'' : Engine} {id id' : EntryId} {entry : Entry} {r : Record}

/-- The record the engine stores for `id`. -/
def record (e : Engine) (id : EntryId) : Option Record := (e.entries.lookup id).map Entry.record

theorem record_of_lookup (hl : e.entries.lookup id = some entry) :
    e.record id = some entry.record := by
  rw [record, hl]
  rfl

theorem record_eq_none_iff : e.record id = none ↔ e.entries.lookup id = none :=
  Option.map_eq_none_iff

theorem record_congr (h : e'.entries.lookup id = e.entries.lookup id) :
    e'.record id = e.record id := by
  rw [record, h, record]

/-- The record may be reclaimed at a reading made between `e` and `e'`. -/
def Aged (e e' : Engine) (r : Record) : Prop :=
  ∃ t i, r.removableAtMs = some t ∧ e.clock.reads ≤ i ∧ i < e'.clock.reads ∧
    t ≤ e.clock.readings i

theorem Aged.mono {e₁ e₂ : Engine} (h : Aged e₁ e₂ r) (h₁ : e.Later e₁) (h₂ : e₂.Later e') :
    Aged e e' r := by
  obtain ⟨t, i, hr, hlo, hhi, ht⟩ := h
  rw [h₁.readings] at ht
  exact ⟨t, i, hr, h₁.reads.trans hlo, Nat.lt_of_lt_of_le hhi h₂.reads, ht⟩

/-- The record of `id` is as before, or it has aged and is gone. -/
structure Ages (id : EntryId) (e e' : Engine) : Prop where
  later : e.Later e'
  record : e'.record id = e.record id ∨
    e'.record id = none ∧ ∃ r, e.record id = some r ∧ Aged e e' r

theorem Ages.of_later (hlater : e.Later e') (h : e'.record id = e.record id) : Ages id e e' :=
  ⟨hlater, .inl h⟩

theorem Ages.refl (id : EntryId) (e : Engine) : Ages id e e := .of_later (.refl e) rfl

theorem Ages.trans (h : Ages id e e') (h' : Ages id e' e'') : Ages id e e'' := by
  refine ⟨h.later.trans h'.later, ?_⟩
  rcases h.record with heq | ⟨hnone, r, hr, haged⟩
  · rcases h'.record with heq' | ⟨hnone', r, hr', haged'⟩
    · exact .inl (heq'.trans heq)
    · exact .inr ⟨hnone', r, heq ▸ hr', haged'.mono h.later (.refl _)⟩
  · rcases h'.record with heq' | ⟨-, r', hr', -⟩
    · exact .inr ⟨heq'.trans hnone, r, hr, haged.mono (.refl _) h'.later⟩
    · rw [hnone] at hr'
      cases hr'

/-! ## Updates the records do not see -/

theorem record_recordAccess (e : Engine) (id id' : EntryId) :
    (e.recordAccess id).record id' = e.record id' := by
  cases hl : e.entries.lookup id with
  | none => simp [recordAccess, hl]
  | some entry =>
    simp only [record, recordAccess, hl, touch, HashMap.lookup_insert']
    split
    · next h => rw [h, hl]; rfl
    · rfl

theorem record_removeEntry (e : Engine) (id id' : EntryId) :
    (e.removeEntry id).2.record id' = if id' = id then none else e.record id' := by
  rw [record, removeEntry_entries, HashMap.lookup_erase']
  split <;> rfl

theorem ages_recordAccess (id : EntryId) (e : Engine) (id' : EntryId) :
    Ages id e (e.recordAccess id') :=
  .of_later (later_apply e (.access id')) (record_recordAccess e id' id)

theorem ages_tick (id : EntryId) (e : Engine) : Ages id e e.tick :=
  .of_later (later_apply e .tick) rfl

theorem ages_activeLease (id : EntryId) (e : Engine) (id' : EntryId) :
    Ages id e (e.activeLease id').2 := by
  refine .of_later (Does.activeLease (P := fun _ => True) trivial id' e).later (record_congr ?_)
  rw [activeLease_entries]

theorem ages_startLeaseForMissing (id : EntryId) (e : Engine) (id' : EntryId)
    (leaseTtlMs : UInt64) : Ages id e (e.startLeaseForMissing id' leaseTtlMs).2 := by
  refine .of_later (later_startLeaseForMissing e id' leaseTtlMs) (record_congr ?_)
  rw [startLeaseForMissing_entries]

/-! ## Lazy removal -/

/-- The removal of an entry that is expired at the next reading. -/
theorem ages_remove_expired (id : EntryId) (hl : e.entries.lookup id' = some entry)
    (hstate : entryStateAt entry e.clock.nowMs = .expired) :
    Ages id e (e.tick.removeEntry id').2 := by
  refine ⟨(later_apply e .tick).trans (later_apply e.tick (.remove id')), ?_⟩
  have hlookup : (e.tick.removeEntry id').2.entries.lookup id =
      if id = id' then none else e.entries.lookup id := by
    rw [removeEntry_entries, HashMap.lookup_erase', tick_entries]
  split at hlookup
  · next hid =>
    subst hid
    obtain ⟨t, hr, ht⟩ := entryStateAt_expired hstate
    refine .inr ⟨record_eq_none_iff.mpr hlookup, entry.record, record_of_lookup hl, ?_⟩
    refine ⟨t, e.clock.reads, hr, Nat.le_refl _, ?_, ht⟩
    rw [removeEntry_clock]
    exact Nat.lt_succ_self _
  · exact .inl (record_congr hlookup)

theorem ages_getRefInner {R : Type} (id : EntryId) (e : Engine) (ns : String) (key : Bytes)
    (updateAccess : Bool) (map : GetOutcomeRef → R) :
    Ages id e (e.getRefInner ns key updateAccess map).2 := by
  cases hl : e.entries.lookup ⟨ns, key⟩ with
  | none =>
    simp only [getRefInner, tick_entries, hl]
    exact ages_tick id e
  | some entry =>
    have haccess := (ages_tick id e).trans (ages_recordAccess id e.tick ⟨ns, key⟩)
    have htouch := touch_eq_recordAccess (e := e.tick) hl
    simp only [getRefInner, tick_entries, hl, htouch]
    cases hstate : entryStateAt entry e.clock.nowMs with
    | missing => exact ages_tick id e
    | expired => exact ages_remove_expired id hl hstate
    | fresh | stale =>
      dsimp only
      split
      · exact haccess
      · exact ages_tick id e

theorem ages_get (id : EntryId) (e : Engine) (ns : String) (key : Bytes) :
    Ages id e (e.get ns key).2 :=
  ages_getRefInner id e ns key true _

section
variable {ns : String} {key : Bytes}

theorem get_of_absent (hl : e.entries.lookup ⟨ns, key⟩ = none) :
    e.get ns key = (.miss, e.tick) := by
  simp [get, getRef, getRefInner, hl]

theorem get_of_expired (hl : e.entries.lookup ⟨ns, key⟩ = some entry)
    (hstate : entryStateAt entry e.clock.nowMs = .expired) :
    e.get ns key = (.miss, (e.tick.removeEntry ⟨ns, key⟩).2) := by
  simp [get, getRef, getRefInner, hl, hstate]

theorem get_of_fresh (hl : e.entries.lookup ⟨ns, key⟩ = some entry)
    (hstate : entryStateAt entry e.clock.nowMs = .fresh) :
    e.get ns key = (.hit entry.value, e.tick.recordAccess ⟨ns, key⟩) := by
  have hl' : e.tick.entries.lookup ⟨ns, key⟩ = some entry := hl
  simp [get, getRef, getRefInner, hl, hstate, touch_eq_recordAccess hl']

theorem get_of_stale (hl : e.entries.lookup ⟨ns, key⟩ = some entry)
    (hstate : entryStateAt entry e.clock.nowMs = .stale) :
    e.get ns key = (.stale entry.value, e.tick.recordAccess ⟨ns, key⟩) := by
  have hl' : e.tick.entries.lookup ⟨ns, key⟩ = some entry := hl
  simp [get, getRef, getRefInner, hl, hstate, touch_eq_recordAccess hl']

end

theorem ages_batchGet (id : EntryId) (e : Engine) (ns : String) (keys : List Bytes) :
    Ages id e (e.batchGet ns keys).2 := by
  induction keys generalizing e with
  | nil => exact .refl id e
  | cons key keys ih => exact (ages_get id e ns key).trans (ih (e.get ns key).2)

theorem ages_startLease (id : EntryId) (e : Engine) (ns : String) (key : Bytes)
    (leaseTtlMs : UInt64) : Ages id e (e.startLease ns key leaseTtlMs).2 := by
  have hactive := ages_activeLease id e ⟨ns, key⟩
  have hlookup := congrArg (AList.lookup ⟨ns, key⟩) (activeLease_entries e ⟨ns, key⟩)
  have htick := hactive.trans (ages_tick id _)
  cases hl : e.entries.lookup ⟨ns, key⟩ with
  | none =>
    rw [startLease_of_missing hl]
    exact hactive.trans (ages_startLeaseForMissing id _ _ _)
  | some entry =>
    rw [hl] at hlookup
    cases hstate : entryStateAt entry (e.activeLease ⟨ns, key⟩).2.clock.nowMs with
    | missing => exact absurd hstate (entryStateAt_ne_missing _ _)
    | fresh =>
      rw [startLease_of_fresh hl hstate]
      exact htick.trans (ages_recordAccess id _ _)
    | stale =>
      have haccess := htick.trans (ages_recordAccess id _ ⟨ns, key⟩)
      rw [startLease_of_stale hl hstate]
      dsimp only
      split
      · exact haccess
      · exact haccess.trans (.of_later (later_apply _ (.grantLease _ _)) rfl)
    | expired =>
      rw [startLease_of_expired hl hstate]
      dsimp only
      split
      · exact htick
      · exact (hactive.trans (ages_remove_expired id hlookup hstate)).trans
          (ages_startLeaseForMissing id _ _ _)

/-! ## Reclamation and writes -/

theorem Due.aged {t : UInt64} (h : e.Due ⟨t, id⟩) (ht : t ≤ e.clock.nowMs)
    (hreads : e.clock.reads < e'.clock.reads) :
    ∃ r, e.record id = some r ∧ Aged e e' r := by
  obtain ⟨entry, hl, hr⟩ := h
  exact ⟨entry.record, record_of_lookup hl, t, e.clock.reads, hr, Nat.le_refl _, hreads, ht⟩

theorem ages_removeExpired (H : e.Inv) (id : EntryId) (maxEntries : Nat) :
    Ages id e (e.removeExpired maxEntries).2 := by
  refine ⟨later_exec e (.reclaimExpiredBudget maxEntries), ?_⟩
  rcases lookup_removeExpired H.indexed maxEntries id with h | ⟨h, t, hdue, ht⟩
  · exact .inl (record_congr h)
  · refine .inr ⟨record_eq_none_iff.mpr h, hdue.aged ht ?_⟩
    rw [removeExpired_clock]
    exact Nat.lt_succ_self _

/-- A rejected put leaves every record alone. -/
theorem record_put_error (H : e.Inv) {o : IterOrder} {command : PutCommand} {error : PutError}
    (h : (e.put o command).1 = .error error) (id : EntryId) :
    (e.put o command).2.record id = e.record id := by
  rcases put_cases H o command with ⟨-, heq⟩ | ⟨-, -, heq⟩ | ⟨-, -, _, _, -, -, -, -, -, heq⟩
  · rw [heq]
  · rw [heq]
    rfl
  · rw [heq] at h
    cases h

end Engine

/-- The record a put writes. -/
def PutCommand.record (command : PutCommand) (nowMs : UInt64) : Record :=
  ⟨command.value, command.tags, command.expiresAtMs nowMs, command.staleUntilMs nowMs⟩

/-- The entries a put evicts, if it is accepted. -/
def PutCommand.victims (command : PutCommand) (o : IterOrder) (e : Engine) : List EntryId :=
  Engine.roomVictims o e.tick command.id
    (estimateEntryMemory command.id command.value command.tags)

namespace Engine

/-- An accepted put writes its record and returns the number of its victims; every other record is
as before, or was evicted, or has aged. -/
theorem record_put_ok (H : e.Inv) {o : IterOrder} {command : PutCommand} {outcome : PutOutcome}
    (h : (e.put o command).1 = .ok outcome) :
    (e.put o command).2.record command.id = some (command.record e.clock.nowMs) ∧
      (command.victims o e).length = outcome.evicted ∧
      ∀ id, id ≠ command.id →
        (e.put o command).2.record id = e.record id ∨
          (e.put o command).2.record id = none ∧ ∃ r, e.record id = some r ∧
            (id ∈ command.victims o e ∨ Aged e (e.put o command).2 r) := by
  rcases put_cases H o command with
    ⟨-, heq⟩ | ⟨-, -, heq⟩ | ⟨-, -, evicted, room, hroom, -, -, -, -, heq⟩
  · rw [heq] at h; cases h
  · rw [heq] at h; cases h
  have hcount := (evictUntilFits_victims o (e.tick.dropAndReclaim command.id
    (estimateEntryMemory command.id command.value command.tags))
    (estimateEntryMemory command.id command.value command.tags)).1
  have hlater : (e.tick.dropAndReclaim command.id
      (estimateEntryMemory command.id command.value command.tags)).Later (e.put o command).2 := by
    have hevict := (Does.evictUntilFits (P := fun _ => True) (fun _ => trivial) (fun _ => trivial) o
      (e.tick.dropAndReclaim command.id
        (estimateEntryMemory command.id command.value command.tags))
      (estimateEntryMemory command.id command.value command.tags)).later
    rw [← makeRoom, hroom] at hevict
    rw [heq]
    exact hevict.trans (later_apply room (.store _ _))
  have hlookup : ∀ id, (e.put o command).2.entries.lookup id =
      if id = command.id then some (command.entry e.clock.nowMs room.nextAccess)
      else room.entries.lookup id := by
    intro id
    rw [heq]
    exact HashMap.lookup_insert' ..
  have hout : outcome = ⟨evicted⟩ := by
    rw [heq] at h
    cases h
    rfl
  refine ⟨?_, ?_, fun id hne => ?_⟩
  · rw [record, hlookup, if_pos rfl]
    rfl
  · rw [hout, PutCommand.victims, roomVictims, ← hcount]
    exact congrArg Prod.fst hroom
  · have hl := hlookup id
    rw [if_neg hne] at hl
    have hcases := lookup_makeRoom H.tick o
      (estimateEntryMemory command.id command.value command.tags) hne
    rw [hroom] at hcases
    rcases hcases with hsame | ⟨hnone, hwhy⟩
    · exact .inl (record_congr (hl.trans hsame))
    have hgone := record_eq_none_iff.mpr (hl.trans hnone)
    rcases hwhy with hmem | ⟨hclock, t, hdue, ht⟩
    · cases hr : e.record id with
      | none => exact .inl hgone
      | some r => exact .inr ⟨hgone, r, rfl, .inl hmem⟩
    · -- the reclaimer's reading, the second one of the call, has reached the removable time
      have hreads : e.tick.clock.reads < (e.put o command).2.clock.reads := by
        have := hlater.reads
        rw [hclock] at this
        exact this
      obtain ⟨r, hr, haged⟩ := hdue.aged ht hreads
      exact .inr ⟨hgone, r, hr, .inr (haged.mono (later_apply e .tick) (.refl _))⟩

end Engine
end Cachebox
