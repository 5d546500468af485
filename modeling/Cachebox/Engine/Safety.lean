import Cachebox.Engine.Mutation

/-!
# What holds in every state of an engine

The two safety statements about the engine as a whole, in the terms of the source's data: the four
structures agree with each other (`RepInv`), and the charged memory stays under the cap while a put
is refused for no other reason than its own size.
-/

namespace Cachebox
namespace Engine

/-- The tag index, the expiry index and the memory account of an engine agree with its entries. -/
structure RepInv (e : Engine) : Prop where
  /-- The index files an identifier under exactly the tags of its entry. -/
  tagIndex : ∀ ns tag id, (∃ ids, e.tagIndex.lookup ⟨ns, tag⟩ = some ids ∧ id ∈ ids) ↔
    ∃ entry, e.entries.lookup id = some entry ∧ id.ns = ns ∧ tag ∈ entry.tags
  noEmptySet : ∀ tagId ids, e.tagIndex.lookup tagId = some ids → ∃ id, id ∈ ids
  /-- The index holds exactly the removable times of the entries that have a TTL. -/
  expiryIndex : ∀ key, key ∈ e.expiryIndex ↔
    ∃ entry, e.entries.lookup key.id = some entry ∧ entry.expiresAtMs.isSome ∧
      removableAtMs entry.expiresAtMs entry.staleUntilMs = some key.expiresAtMs
  memoryUsedBytes :
    e.memoryUsedBytes = (e.entries.entries.map fun p => p.2.memoryBytes).sum
  memoryBytes : ∀ id entry, e.entries.lookup id = some entry →
    entry.memoryBytes = estimateEntryMemory id entry.value entry.tags

/-- An entry with a removable time has a TTL: a stale window is only granted on top of one. -/
theorem EntryOk.expiresAtMs_isSome {id : EntryId} {entry : Entry} {t : UInt64}
    (hok : EntryOk id entry) (h : removableAtMs entry.expiresAtMs entry.staleUntilMs = some t) :
    entry.expiresAtMs.isSome := by
  cases hstale : entry.staleUntilMs with
  | none => rw [removableAtMs, hstale, Option.none_or] at h; rw [h]; rfl
  | some staleUntil =>
    obtain ⟨expiresAt, hexpires, -⟩ := hok.window staleUntil hstale
    rw [hexpires]
    rfl

theorem Inv.repInv {e : Engine} (H : e.Inv) : e.RepInv where
  tagIndex ns tag id := by
    have htags := H.indexed.tags ⟨ns, tag⟩ id
    rw [and_true] at htags
    exact htags
  noEmptySet tagId ids hl := by
    obtain ⟨id, ids', hl', hmem⟩ := H.indexed.noEmpty.exists_holds_iff.mpr (Option.isSome_of_mem hl)
    cases hl.symm.trans hl'
    exact ⟨id, hmem⟩
  expiryIndex key := by
    rw [H.indexed.expiry, and_true]
    refine ⟨fun ⟨entry, hl, ht⟩ => ⟨entry, hl, ?_, ht⟩, fun ⟨entry, hl, _, ht⟩ => ⟨entry, hl, ht⟩⟩
    exact (H.accounted.entries key.id entry hl).expiresAtMs_isSome ht
  memoryUsedBytes := H.accounted.memory
  memoryBytes id entry hl := (H.accounted.entries id entry hl).charged

/-- **Every reachable state satisfies the representation invariant**, for every clock, every
sequence of operations and every iteration order of the hash tables. -/
theorem repInv_run (clock : Clock) (limits : EngineLimits) (ops : List Op) :
    ((withClockAndLimits clock limits).run ops).RepInv :=
  (inv_run clock limits ops).repInv

theorem limits_run (clock : Clock) (limits : EngineLimits) (ops : List Op) :
    ((withClockAndLimits clock limits).run ops).limits = limits :=
  (later_run _ ops).limits

/-- The answer of a put is decided by the two sizes of its command. -/
theorem put_answer {e : Engine} (H : e.Inv) (o : IterOrder) (command : PutCommand) :
    let entryBytes := estimateEntryMemory command.id command.value command.tags
    (e.limits.maxValueBytes < command.value.length ∧ (e.put o command).1 =
        .error (.valueTooLarge command.value.length e.limits.maxValueBytes)) ∨
      (command.value.length ≤ e.limits.maxValueBytes ∧ e.limits.maxMemoryBytes < entryBytes ∧
        (e.put o command).1 =
          .error (.valueTooLargeForMemory entryBytes e.limits.maxMemoryBytes)) ∨
      (command.value.length ≤ e.limits.maxValueBytes ∧ entryBytes ≤ e.limits.maxMemoryBytes ∧
        ∃ outcome, (e.put o command).1 = .ok outcome) := by
  intro entryBytes
  rcases put_cases H o command with h | h | h
  · obtain ⟨hvalue, heq⟩ := h
    exact .inl ⟨hvalue, by rw [heq]⟩
  · obtain ⟨hvalue, hsize, heq⟩ := h
    exact .inr (.inl ⟨hvalue, hsize, by rw [heq]⟩)
  · obtain ⟨hvalue, hsize, evicted, room, -, -, -, -, -, heq⟩ := h
    exact .inr (.inr ⟨hvalue, hsize, ⟨evicted⟩, by rw [heq]⟩)

/-- A put is accepted exactly when its value and its entry fit their limits. -/
theorem put_isOk_iff {e : Engine} (H : e.Inv) (o : IterOrder) (command : PutCommand) :
    (∃ outcome, (e.put o command).1 = .ok outcome) ↔
      command.value.length ≤ e.limits.maxValueBytes ∧
        estimateEntryMemory command.id command.value command.tags ≤ e.limits.maxMemoryBytes := by
  obtain ⟨hvalue, heq⟩ | ⟨-, hsize, heq⟩ | ⟨hvalue, hsize, hok⟩ := put_answer H o command
  · rw [heq]
    exact ⟨nofun, fun h => absurd h.1 (Nat.not_le.mpr hvalue)⟩
  · rw [heq]
    exact ⟨nofun, fun h => absurd h.2 (Nat.not_le.mpr hsize)⟩
  · exact ⟨fun _ => ⟨hvalue, hsize⟩, fun _ => hok⟩

/-- What a refusal says: the value or the entry of the command exceeds its limit. -/
theorem put_error {e : Engine} (H : e.Inv) {o : IterOrder} {command : PutCommand} {error : PutError}
    (h : (e.put o command).1 = .error error) :
    let entryBytes := estimateEntryMemory command.id command.value command.tags
    (error = .valueTooLarge command.value.length e.limits.maxValueBytes ∧
        e.limits.maxValueBytes < command.value.length) ∨
      (error = .valueTooLargeForMemory entryBytes e.limits.maxMemoryBytes ∧
        e.limits.maxMemoryBytes < entryBytes) := by
  obtain ⟨hvalue, heq⟩ | ⟨-, hsize, heq⟩ | ⟨-, -, outcome, heq⟩ := put_answer H o command
  · rw [heq] at h
    cases h
    exact .inl ⟨rfl, hvalue⟩
  · rw [heq] at h
    cases h
    exact .inr ⟨rfl, hsize⟩
  · rw [heq] at h
    cases h

theorem put_ne_insufficientMemory {e : Engine} (H : e.Inv) (o : IterOrder) (command : PutCommand)
    (requiredBytes usedBytes maxBytes : Nat) :
    (e.put o command).1 ≠ .error (.insufficientMemory requiredBytes usedBytes maxBytes) := by
  intro h
  obtain ⟨herror, -⟩ | ⟨herror, -⟩ := put_error H h
  all_goals cases herror

/-- **The memory cap and the acceptance of puts** in every reachable state. `put` is a total
function: its eviction loop ends because every round removes a stored entry. -/
theorem memory_capped_and_put_accepted (clock : Clock) (limits : EngineLimits) (ops : List Op) :
    let e := (withClockAndLimits clock limits).run ops
    e.limits = limits ∧ e.memoryUsedBytes ≤ limits.maxMemoryBytes ∧
      ∀ (o : IterOrder) (command : PutCommand),
        ((∃ outcome, (e.put o command).1 = .ok outcome) ↔
          command.value.length ≤ limits.maxValueBytes ∧
            estimateEntryMemory command.id command.value command.tags ≤ limits.maxMemoryBytes) ∧
        ∀ requiredBytes usedBytes maxBytes,
          (e.put o command).1 ≠ .error (.insufficientMemory requiredBytes usedBytes maxBytes) := by
  intro e
  have H : e.Inv := inv_run clock limits ops
  have hlimits : e.limits = limits := limits_run clock limits ops
  refine ⟨hlimits, ?_, fun o command => ⟨?_, put_ne_insufficientMemory H o command⟩⟩
  · rw [← hlimits]
    exact H.capped
  · rw [← hlimits]
    exact put_isOk_iff H o command

end Engine
end Cachebox
