import Cachebox.Engine.Alike

/-!
# What a reader notices of the cleanup

An entry is readable up to and including its removable time: `entry_state_at` compares with `<=`.
`remove_expired` takes it away as soon as its removable time is not after the clock. So the two
comparisons disagree at one instant, the removable time itself, and agree at every other.
-/

namespace Cachebox
namespace Engine

variable {e : Engine} {id : EntryId} {entry : Entry} {nowMs t : UInt64}

/-- An entry is expired after its removable time, and not at it. -/
theorem entryStateAt_eq_expired_iff (hok : EntryOk id entry)
    (ht : removableAtMs entry.expiresAtMs entry.staleUntilMs = some t) :
    entryStateAt entry nowMs = .expired ↔ t < nowMs := by
  cases hstale : entry.staleUntilMs with
  | none =>
    rw [removableAtMs, hstale, Option.none_or] at ht
    simp only [entryStateAt, ht, hstale]
    split
    · next hle => exact iff_of_false (by simp) (UInt64.not_lt.mpr hle)
    · next hlt => exact iff_of_true rfl (UInt64.not_le.mp hlt)
  | some staleUntil =>
    obtain ⟨expiresAt, hexpires, hwindow⟩ := hok.window staleUntil hstale
    rw [removableAtMs, hstale, Option.some_or] at ht
    cases ht
    simp only [entryStateAt, hexpires, hstale]
    split
    · next hle =>
      exact iff_of_false (by simp) (UInt64.not_lt.mpr (UInt64.le_trans hle hwindow))
    · split
      · next hle => exact iff_of_false (by simp) (UInt64.not_lt.mpr hle)
      · next hlt => exact iff_of_true rfl (UInt64.not_le.mp hlt)

/-- What is removable at `nowMs` is expired then, unless this is the very time from which it is
removable. -/
theorem Removable.expired_iff (hok : EntryOk id entry) (h : Removable nowMs id entry) :
    entryStateAt entry nowMs = .expired ↔
      removableAtMs entry.expiresAtMs entry.staleUntilMs ≠ some nowMs := by
  obtain ⟨t, ht, hle⟩ := h
  rw [entryStateAt_eq_expired_iff hok ht, ht, ne_eq, Option.some.injEq]
  constructor
  · rintro hlt rfl
    exact UInt64.lt_irrefl t hlt
  · exact fun hne => UInt64.lt_of_le_of_ne hle hne

/-- An entry that the cleanup takes away was removable at the reading it made. -/
theorem removable_of_removed (H : e.Inv) {maxEntries : Nat}
    (hl : e.entries.lookup id = some entry)
    (hgone : (e.removeExpired maxEntries).2.entries.lookup id = none) :
    Removable e.clock.nowMs id entry := by
  rcases lookup_removeExpired H.indexed maxEntries id with hkept | ⟨-, t, hdue, hle⟩
  · rw [hgone, hl] at hkept
    cases hkept
  · obtain ⟨entry', hl', ht⟩ := hdue
    cases hl.symm.trans hl'
    exact ⟨t, ht, hle⟩

/-- The cleanup inside a put takes away entries that are removable at its own reading. -/
theorem removable_of_reclaimed (H : e.Inv) {id' : EntryId} {entryMemoryBytes : Nat} (hne : id ≠ id')
    (hl : e.entries.lookup id = some entry)
    (hgone : (e.dropAndReclaim id' entryMemoryBytes).entries.lookup id = none) :
    Removable e.clock.nowMs id entry := by
  rcases lookup_dropAndReclaim H id' entryMemoryBytes id with hkept | ⟨-, -, t, hdue, hle⟩
  · rw [if_neg hne, hgone, hl] at hkept
    cases hkept
  · obtain ⟨entry', hl', ht⟩ := hdue
    cases hl.symm.trans hl'
    exact ⟨t, ht, hle⟩

/-- What a read answers is a function of the stored entry and of the reading it makes. -/
theorem get_answer (e : Engine) (ns : String) (key : Bytes) :
    (e.get ns key).1 = (e.entries.lookup ⟨ns, key⟩).elim .miss fun entry =>
      match entryStateAt entry e.clock.nowMs with
      | .fresh => .hit entry.value
      | .stale => .stale entry.value
      | .missing | .expired => .miss := by
  cases hl : e.entries.lookup ⟨ns, key⟩ with
  | none => rw [get_of_absent hl]; rfl
  | some entry =>
    cases hstate : entryStateAt entry e.clock.nowMs with
    | fresh => rw [get_of_fresh hl hstate]; simp [hstate]
    | stale => rw [get_of_stale hl hstate]; simp [hstate]
    | expired => rw [get_of_expired hl hstate]; simp [hstate]
    | missing => exact absurd hstate (entryStateAt_ne_missing entry _)

/-- A cleanup before a read at the same time is not noticed, if the entry is not at its removable
time. -/
theorem get_removeExpired (H : e.Inv) (maxEntries : Nat) {ns : String} {key : Bytes}
    (hclock : e.tick.clock.nowMs = e.clock.nowMs)
    (hoff : ∀ entry, e.entries.lookup ⟨ns, key⟩ = some entry →
      removableAtMs entry.expiresAtMs entry.staleUntilMs ≠ some e.clock.nowMs) :
    ((e.removeExpired maxEntries).2.get ns key).1 = (e.get ns key).1 := by
  have hnow : (e.removeExpired maxEntries).2.clock.nowMs = e.clock.nowMs := by
    rw [removeExpired_clock]
    exact hclock
  rw [get_answer, get_answer, hnow]
  rcases lookup_removeExpired H.indexed maxEntries ⟨ns, key⟩ with hkept | ⟨hgone, t, hdue, hle⟩
  · rw [hkept]
  · obtain ⟨entry, hl, ht⟩ := hdue
    have hexpired : entryStateAt entry e.clock.nowMs = .expired :=
      (Removable.expired_iff (H.accounted.entries _ _ hl) ⟨t, ht, hle⟩).mpr (hoff entry hl)
    rw [hgone, hl]
    simp [hexpired]

/-- **Cleanup is invisible except at the removable time.** What a cleanup removes, by itself or
inside a put, would be a miss exactly if the reading is not the removable time of the entry; and a
read right after a cleanup answers as without it, if the reading is not the removable time of the
entry it reads. -/
theorem cleanup_invisible_iff (clock : Clock) (limits : EngineLimits) (ops : List Op) :
    let e := (withClockAndLimits clock limits).run ops
    (∀ maxEntries id entry, e.entries.lookup id = some entry →
      (e.reclaimExpiredBudget maxEntries).2.entries.lookup id = none →
        (entryStateAt entry e.clock.nowMs = .expired ↔
          removableAtMs entry.expiresAtMs entry.staleUntilMs ≠ some e.clock.nowMs)) ∧
    (∀ command : PutCommand, ∀ id entry, id ≠ command.id → e.entries.lookup id = some entry →
      (e.tick.dropAndReclaim command.id
        (estimateEntryMemory command.id command.value command.tags)).entries.lookup id = none →
        (entryStateAt entry e.tick.clock.nowMs = .expired ↔
          removableAtMs entry.expiresAtMs entry.staleUntilMs ≠ some e.tick.clock.nowMs)) ∧
    ∀ maxEntries ns key, e.tick.clock.nowMs = e.clock.nowMs →
      (∀ entry, e.entries.lookup ⟨ns, key⟩ = some entry →
        removableAtMs entry.expiresAtMs entry.staleUntilMs ≠ some e.clock.nowMs) →
      ((e.reclaimExpiredBudget maxEntries).2.get ns key).1 = (e.get ns key).1 := by
  intro e
  have H : e.Inv := inv_run clock limits ops
  refine ⟨fun maxEntries id entry hl hgone => ?_, fun command id entry hne hl hgone => ?_,
    fun maxEntries ns key hclock hoff => get_removeExpired H maxEntries hclock hoff⟩
  · exact (removable_of_removed H hl hgone).expired_iff (H.accounted.entries id entry hl)
  · exact (removable_of_reclaimed H.tick hne hl hgone).expired_iff (H.accounted.entries id entry hl)

/-- A put of an entry that is fresh for 10 milliseconds. -/
def shortPut : PutCommand :=
  { ns := "app", key := [1], value := [118], ttl := some ⟨10⟩, staleTtl := none, tags := []
    cost := none }

/-- A clock that reads 0 once and then stands at `nowMs`. -/
def zeroThen (nowMs : UInt64) : Clock := ⟨fun i => if i = 0 then 0 else nowMs, 0⟩

/-- At 11 the entry is expired, and a read misses with and without the cleanup. -/
theorem cleanup_invisible_iff_shortPut :
    let e := (withClockAndLimits (zeroThen 11) default).run [.put .asStored shortPut]
    ((e.reclaimExpiredBudget 1).2.get "app" [1]).1 = (e.get "app" [1]).1 := by
  intro e
  refine (cleanup_invisible_iff (zeroThen 11) default [.put .asStored shortPut]).2.2 1 "app" [1]
    (by decide +kernel) ?_
  have hstored : e.entries.lookup ⟨"app", [1]⟩ = some (shortPut.entry 0 0) := by decide +kernel
  intro entry hl
  cases hstored.symm.trans hl
  decide +kernel

/-- At 10, its removable time, the entry is fresh and a read hits. A cleanup at that time removes
it, and the read misses. -/
theorem not_cleanup_invisible_at_removableAtMs :
    let e := (withClockAndLimits (zeroThen 10) default).run [.put .asStored shortPut]
    entryStateAt (shortPut.entry 0 0) e.clock.nowMs = .fresh ∧
      e.entries.lookup ⟨"app", [1]⟩ = some (shortPut.entry 0 0) ∧
      (e.reclaimExpiredBudget 1).2.entries.lookup ⟨"app", [1]⟩ = none ∧
      (e.get "app" [1]).1 = .hit [118] ∧
      ((e.reclaimExpiredBudget 1).2.get "app" [1]).1 = .miss := by
  decide +kernel

end Engine
end Cachebox
