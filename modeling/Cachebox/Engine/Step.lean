import Cachebox.Engine.Reclaim
import Cachebox.Theory.Run

/-!
# Runs of the engine

`Op` lists the public operations with their arguments, `Engine.exec` runs one of them, and a run is
a list of operations (`Machine.run`). The arguments of an operation that iterates over a hash table
include the iteration order. `put_cases` says once what a put can do; every other operation is a
combination of removals and of updates the invariant does not see.
-/

namespace Cachebox
namespace Engine

variable {e e' : Engine} {id id' : EntryId} {entry : Entry} {o : IterOrder}

/-! ## Storing an entry -/

theorem entryOk_entry (command : PutCommand) (nowMs lastAccess : UInt64) :
    EntryOk command.id (command.entry nowMs lastAccess) := by
  refine ⟨rfl, fun staleUntil h => ?_⟩
  simp only [PutCommand.entry, PutCommand.staleUntilMs] at h ⊢
  split at h
  · next expiresAt staleTtl hexpires _ =>
    cases h
    exact ⟨expiresAt, hexpires, UInt64.le_saturatingAdd _ _⟩
  · cases h

theorem carries_storeEntry {tagId : TagId} (hnone : e.entries.lookup id = none) :
    (e.storeEntry id entry).Carries id' tagId ↔
      tagId ∈ tagIds id.ns entry.tags ∧ id' = id ∨ e.Carries id' tagId := by
  simp only [Carries, storeEntry, HashMap.lookup_insert', mem_tagIds]
  by_cases hid : id' = id
  · subst hid
    simp only [if_true, Option.some.injEq, exists_eq_left', hnone, reduceCtorEq, false_and,
      exists_false, or_false, and_true]
    exact and_congr_left fun _ => eq_comm
  · simp [hid]

theorem due_storeEntry {key : ExpiryKey} (hnone : e.entries.lookup id = none) :
    (e.storeEntry id entry).Due key ↔
      (key.id = id ∧ removableAtMs entry.expiresAtMs entry.staleUntilMs = some key.expiresAtMs) ∨
        e.Due key := by
  simp only [Due, storeEntry, HashMap.lookup_insert']
  by_cases hid : key.id = id
  · subst hid
    simp [hnone]
  · simp [hid]

theorem Inv.storeEntry (H : e.Inv) (hnone : e.entries.lookup id = none) (hok : EntryOk id entry)
    (hfits : e.memoryUsedBytes + entry.memoryBytes ≤ e.limits.maxMemoryBytes) :
    (e.storeEntry id entry).Inv where
  indexed :=
    { tags := fun tagId id' => by
        rw [carries_storeEntry hnone, and_true]
        simp only [Engine.storeEntry, MultiMap.holds_foldl_add, H.indexed.tags, and_true]
      noEmpty := H.indexed.noEmpty.foldl_add _ _
      expiry := fun key => by
        rw [due_storeEntry hnone, and_true]
        have hkey := H.indexed.expiry key
        rw [and_true] at hkey
        simp only [Engine.storeEntry]
        cases hr : removableAtMs entry.expiresAtMs entry.staleUntilMs with
        | none => simp [hkey]
        | some t =>
          obtain ⟨t', id'⟩ := key
          simp only [Finset.mem_insert, hkey, ExpiryKey.mk.injEq, Option.some.injEq]
          exact or_congr_left ⟨fun h => ⟨h.2, h.1.symm⟩, fun h => ⟨h.2.symm, h.1⟩⟩ }
  accounted :=
    { entries := fun id' entry' h => by
        simp only [Engine.storeEntry, HashMap.lookup_insert'] at h
        split at h
        · next hid => cases h; rw [hid]; exact hok
        · exact H.accounted.entries id' entry' h
      memory := by
        simp only [Engine.storeEntry, HashMap.sumBy_insert, HashMap.erase_of_lookup_none hnone,
          H.accounted.memory]
        exact Nat.add_comm _ _ }
  capped := hfits

/-! ## What a put can do -/

/-- A put is rejected for its value, is rejected for its size, or makes room and stores its entry.
The `InsufficientMemory` branch is not among the cases. -/
theorem put_cases (H : e.Inv) (o : IterOrder) (command : PutCommand) :
    (e.limits.maxValueBytes < command.value.length ∧
        e.put o command =
          (.error (.valueTooLarge command.value.length e.limits.maxValueBytes), e)) ∨
      (command.value.length ≤ e.limits.maxValueBytes ∧
        e.limits.maxMemoryBytes < estimateEntryMemory command.id command.value command.tags ∧
        e.put o command =
          (.error (.valueTooLargeForMemory
            (estimateEntryMemory command.id command.value command.tags)
            e.limits.maxMemoryBytes), e.tick)) ∨
      (command.value.length ≤ e.limits.maxValueBytes ∧
        estimateEntryMemory command.id command.value command.tags ≤ e.limits.maxMemoryBytes ∧
        ∃ evicted room,
          makeRoom o e.tick command.id
            (estimateEntryMemory command.id command.value command.tags) = (evicted, room) ∧
          room.Inv ∧ room.limits = e.limits ∧ room.entries.lookup command.id = none ∧
          room.memoryUsedBytes + estimateEntryMemory command.id command.value command.tags ≤
            room.limits.maxMemoryBytes ∧
          e.put o command =
            (.ok ⟨evicted⟩,
              room.storeEntry command.id (command.entry e.clock.nowMs room.nextAccess))) := by
  by_cases hvalue : command.value.length > e.limits.maxValueBytes
  · refine .inl ⟨hvalue, ?_⟩
    unfold put
    rw [if_pos hvalue]
  have hlen := Nat.not_lt.mp hvalue
  by_cases hsize :
      estimateEntryMemory command.id command.value command.tags > e.limits.maxMemoryBytes
  · refine .inr (.inl ⟨hlen, hsize, ?_⟩)
    unfold put
    rw [if_neg hvalue]
    dsimp only
    exact if_pos hsize
  have hest := Nat.not_lt.mp hsize
  have hinv := H.tick.makeRoom o command.id
    (estimateEntryMemory command.id command.value command.tags)
  have hlimits := makeRoom_limits o e.tick command.id
    (estimateEntryMemory command.id command.value command.tags)
  have hnone := lookup_makeRoom_self H.tick o command.id
    (estimateEntryMemory command.id command.value command.tags)
  have hfits := makeRoom_fits H.tick o command.id hest
  cases hroom : makeRoom o e.tick command.id
    (estimateEntryMemory command.id command.value command.tags) with
  | mk evicted room =>
    rw [hroom] at hinv hlimits hnone hfits
    rw [← hlimits] at hfits
    refine .inr (.inr ⟨hlen, hest, evicted, room, rfl, hinv, hlimits, hnone, hfits, ?_⟩)
    unfold put
    rw [if_neg hvalue]
    dsimp only
    rw [if_neg (show ¬ _ > e.tick.limits.maxMemoryBytes from hsize), hroom]
    exact if_neg (Nat.not_lt.mpr hfits)

theorem Inv.put (H : e.Inv) (o : IterOrder) (command : PutCommand) : (e.put o command).2.Inv := by
  rcases put_cases H o command with
    ⟨-, heq⟩ | ⟨-, -, heq⟩ | ⟨-, -, evicted, room, -, hinv, -, hnone, hfits, heq⟩ <;> rw [heq]
  · exact H
  · exact H.tick
  · exact hinv.storeEntry hnone (entryOk_entry ..) hfits

/-! ## Reads, deletion and invalidation -/

theorem Inv.touch (H : e.Inv) (hl : e.entries.lookup id = some entry) : (e.touch id entry).Inv := by
  have hlookup : ∀ id', (e.touch id entry).entries.lookup id' =
      if id' = id then some { entry with lastAccess := e.nextAccess }
      else e.entries.lookup id' :=
    fun id' => HashMap.lookup_insert' ..
  have hcarries : ∀ id' tagId, (e.touch id entry).Carries id' tagId ↔ e.Carries id' tagId := by
    intro id' tagId
    simp only [Carries, hlookup]
    split
    · next h => rw [h, hl]; simp
    · rfl
  have hdue : ∀ key, (e.touch id entry).Due key ↔ e.Due key := by
    intro key
    simp only [Due, hlookup]
    split
    · next h => rw [h, hl]; simp
    · rfl
  refine ⟨⟨fun tagId id' => ?_, H.indexed.noEmpty, fun key => ?_⟩, ⟨?_, ?_⟩, H.capped⟩
  · rw [hcarries]
    exact H.indexed.tags tagId id'
  · rw [hdue]
    exact H.indexed.expiry key
  · intro id' entry' h
    rw [hlookup] at h
    split at h
    · next hid =>
      cases h
      subst hid
      have hok := H.accounted.entries id' entry hl
      exact ⟨hok.charged, hok.window⟩
    · exact H.accounted.entries id' entry' h
  · have hsum := HashMap.sumBy_of_lookup (f := fun _ entry => entry.memoryBytes) hl
    have hinsert := HashMap.sumBy_insert (fun _ entry => entry.memoryBytes) e.entries id
      { entry with lastAccess := e.nextAccess }
    exact H.accounted.memory.trans (hsum.trans hinsert.symm)

theorem Inv.recordAccess (H : e.Inv) (id : EntryId) : (e.recordAccess id).Inv := by
  unfold Engine.recordAccess
  split
  · exact H
  · next hl => exact H.touch hl

/-- The read of a key: a miss, a lazy removal, or a value with or without an access stamp. -/
theorem Inv.getRefInner {R : Type} (H : e.Inv) (ns : String) (key : Bytes) (updateAccess : Bool)
    (map : GetOutcomeRef → R) : (e.getRefInner ns key updateAccess map).2.Inv := by
  unfold Engine.getRefInner
  dsimp only
  split
  · exact H.tick
  · next entry hl =>
    have htouched : (if updateAccess then e.tick.touch ⟨ns, key⟩ entry else e.tick).Inv := by
      split
      · exact H.tick.touch hl
      · exact H.tick
    split
    · exact H.tick
    · exact H.tick.removeEntry _
    · exact htouched
    · exact htouched

theorem Inv.get (H : e.Inv) (ns : String) (key : Bytes) : (e.get ns key).2.Inv :=
  H.getRefInner ns key true _

theorem Inv.batchGet (H : e.Inv) (ns : String) (keys : List Bytes) :
    (e.batchGet ns keys).2.Inv := by
  induction keys generalizing e with
  | nil => exact H
  | cons key keys ih => exact ih (H.get ns key)

theorem Inv.dropLease (H : e.Inv) (id : EntryId) : (e.dropLease id).Inv :=
  H.congr rfl rfl rfl rfl rfl

theorem Inv.delete (H : e.Inv) (ns : String) (key : Bytes) : (e.delete ns key).2.Inv :=
  (H.dropLease _).removeEntry _

/-- The entries a tag invalidation visits are the ones that carry the tag. -/
theorem invalidateTag_spec (H : e.Inv) (o : IterOrder) (ns tag : String) :
    ∃ ids : List EntryId, ids.Nodup ∧ (∀ id, id ∈ ids ↔ e.Carries id ⟨ns, tag⟩) ∧
      e.invalidateTag o ns tag =
        removeEach (fun e => e) { e with tagIndex := e.tagIndex.erase ⟨ns, tag⟩ } ids := by
  have htags : ∀ id, e.tagIndex.Holds ⟨ns, tag⟩ id ↔ e.Carries id ⟨ns, tag⟩ := by
    intro id
    rw [H.indexed.tags, and_true]
  unfold invalidateTag
  dsimp only
  split
  · next hl =>
    refine ⟨[], List.nodup_nil, fun id => ?_, ?_⟩
    · rw [← htags]
      simp [MultiMap.Holds, hl]
    · rw [HashMap.erase_of_lookup_none hl]
      rfl
  · next ids hl =>
    refine ⟨o.order ids.keys, o.nodup_order.mpr ids.keys_nodup, fun id => ?_, rfl⟩
    rw [← htags, o.mem_order]
    simp [MultiMap.Holds, hl, AList.mem_keys]

theorem Inv.invalidateTag (H : e.Inv) (o : IterOrder) (ns tag : String) :
    (e.invalidateTag o ns tag).2.Inv := by
  obtain ⟨ids, -, hids, heq⟩ := invalidateTag_spec H o ns tag
  rw [heq]
  have hhidden : { e with tagIndex := e.tagIndex.erase ⟨ns, tag⟩ }.Indexed
      (fun tagId => tagId ≠ TagId.mk ns tag) (fun _ => True) := by
    refine ⟨fun tagId id => ?_, H.indexed.noEmpty.erase _, H.indexed.expiry⟩
    rw [MultiMap.holds_erase, H.indexed.tags, and_true]
    rfl
  have hremoved := hhidden.removeEach statsOnly_self ids
  have haccounted : { e with tagIndex := e.tagIndex.erase ⟨ns, tag⟩ }.Accounted :=
    ⟨H.accounted.entries, H.accounted.memory⟩
  refine ⟨⟨fun tagId id => ?_, hremoved.noEmpty, hremoved.expiry⟩,
    haccounted.removeEach statsOnly_self ids,
    capped_removeEach (e := { e with tagIndex := e.tagIndex.erase ⟨ns, tag⟩ }) H.capped
      statsOnly_self ids⟩
  rw [hremoved.tags, and_true]
  refine ⟨And.left, fun hc => ⟨hc, ?_⟩⟩
  -- nothing carries the invalidated tag any more: its carriers have been removed
  rintro rfl
  obtain ⟨entry, hl, hrest⟩ := hc
  rw [lookup_removeEach statsOnly_self] at hl
  split at hl
  · cases hl
  · next hmem => exact hmem ((hids id).mpr ⟨entry, hl, hrest⟩)

/-! ## Leases -/

theorem Inv.entryState (H : e.Inv) (id : EntryId) : (e.entryState id).2.Inv := by
  unfold Engine.entryState
  split
  · exact H
  · exact H.tick

theorem Inv.activeLease (H : e.Inv) (id : EntryId) : (e.activeLease id).2.Inv := by
  unfold Engine.activeLease
  split
  · exact H
  · exact H.tick

theorem Inv.createLease (H : e.Inv) (id : EntryId) (leaseTtlMs : UInt64) :
    (e.createLease id leaseTtlMs).2.Inv :=
  H.congr rfl rfl rfl rfl rfl

theorem Inv.startLeaseForMissing (H : e.Inv) (id : EntryId) (leaseTtlMs : UInt64) :
    (e.startLeaseForMissing id leaseTtlMs).2.Inv := by
  have hactive := H.activeLease id
  unfold Engine.startLeaseForMissing
  split
  · next heq => rw [heq] at hactive; exact hactive
  · next heq => rw [heq] at hactive; exact hactive.createLease id leaseTtlMs

theorem Inv.startLease (H : e.Inv) (ns : String) (key : Bytes) (leaseTtlMs : UInt64) :
    (e.startLease ns key leaseTtlMs).2.Inv := by
  have hstate := (H.activeLease ⟨ns, key⟩).entryState ⟨ns, key⟩
  unfold Engine.startLease
  dsimp only
  split
  · next heq =>
    rw [heq] at hstate
    split
    · exact hstate.recordAccess _
    · exact (hstate.recordAccess _).createLease _ _
  · next heq =>
    rw [heq] at hstate
    split
    · exact hstate.recordAccess _
    · exact (hstate.recordAccess _).createLease _ _
  · next heq =>
    rw [heq] at hstate
    split
    · exact hstate
    · exact (hstate.removeEntry _).startLeaseForMissing _ _
  · next heq =>
    rw [heq] at hstate
    exact hstate.startLeaseForMissing _ _

theorem Inv.completeLease (H : e.Inv) (o : IterOrder) (command : CompleteLeaseCommand) :
    (e.completeLease o command).2.Inv := by
  have hactive := H.activeLease command.id
  unfold Engine.completeLease
  split
  · next heq => rw [heq] at hactive; exact hactive.dropLease _
  · next heq =>
    rw [heq] at hactive
    split
    · exact hactive
    · exact (hactive.dropLease _).put o command.toPut

/-! ## Runs -/

end Engine

/-- The public operations of an engine with their arguments. -/
inductive Op where
  | put (o : IterOrder) (command : PutCommand)
  | get (ns : String) (key : Bytes)
  | getRef (ns : String) (key : Bytes)
  | getRefWithoutAccessUpdate (ns : String) (key : Bytes)
  | batchGet (ns : String) (keys : List Bytes)
  | delete (ns : String) (key : Bytes)
  | invalidateTag (o : IterOrder) (ns tag : String)
  | startLease (ns : String) (key : Bytes) (leaseTtlMs : UInt64)
  | completeLease (o : IterOrder) (command : CompleteLeaseCommand)
  | reclaimExpiredBudget (maxEntries : Nat)

/-- What an operation returns. The borrowing reads return the outcome they pass to their
callback. -/
inductive Outcome where
  | put (result : Except PutError PutOutcome)
  | get (outcome : GetOutcome)
  | getRef (outcome : GetOutcomeRef)
  | batchGet (outcomes : List GetOutcome)
  | delete (removed : Bool)
  | invalidateTag (removed : Nat)
  | startLease (outcome : StartLeaseOutcome)
  | completeLease (result : Except CompleteLeaseError PutOutcome)
  | reclaimExpiredBudget (removed : Nat)
  deriving DecidableEq, Repr

namespace Engine

def exec (e : Engine) : Op → Outcome × Engine
  | .put o command => (e.put o command).map .put id
  | .get ns key => (e.get ns key).map .get id
  | .getRef ns key => (e.getRef ns key id).map .getRef id
  | .getRefWithoutAccessUpdate ns key =>
    (e.getRefWithoutAccessUpdate ns key id).map .getRef id
  | .batchGet ns keys => (e.batchGet ns keys).map .batchGet id
  | .delete ns key => (e.delete ns key).map .delete id
  | .invalidateTag o ns tag => (e.invalidateTag o ns tag).map .invalidateTag id
  | .startLease ns key leaseTtlMs => (e.startLease ns key leaseTtlMs).map .startLease id
  | .completeLease o command => (e.completeLease o command).map .completeLease id
  | .reclaimExpiredBudget maxEntries =>
    (e.reclaimExpiredBudget maxEntries).map .reclaimExpiredBudget id

abbrev run (e : Engine) (ops : List Op) : Engine := Machine.run exec e ops

/-- Every operation keeps the invariant. -/
theorem Inv.exec {e : Engine} (H : e.Inv) (op : Op) : (e.exec op).2.Inv := by
  cases op with
  | put o command => exact H.put o command
  | get ns key => exact H.get ns key
  | getRef ns key => exact H.getRefInner ns key true id
  | getRefWithoutAccessUpdate ns key => exact H.getRefInner ns key false id
  | batchGet ns keys => exact H.batchGet ns keys
  | delete ns key => exact H.delete ns key
  | invalidateTag o ns tag => exact H.invalidateTag o ns tag
  | startLease ns key leaseTtlMs => exact H.startLease ns key leaseTtlMs
  | completeLease o command => exact H.completeLease o command
  | reclaimExpiredBudget maxEntries => exact H.removeExpired maxEntries

/-- The invariant holds in every reachable state. -/
theorem inv_run (clock : Clock) (limits : EngineLimits) (ops : List Op) :
    ((withClockAndLimits clock limits).run ops).Inv :=
  Machine.run_invariant (fun _ op H => H.exec op) (inv_withClockAndLimits clock limits) ops

end Engine
end Cachebox
