import Mathlib.Data.List.MinMax
import Cachebox.Engine.Basic

/-!
# The operations of the engine (`impl Engine`)

Each `&mut self` method is a function from the engine to its result and the engine after it, in the
order of the statements of the source. Every call of `clock.now_ms()` takes the next reading of the
clock (`Clock.nowMs`) and advances it (`Engine.tick`), so a method that does not reach a call does
not consume a reading.
-/

namespace Cachebox
namespace Engine

/-- `Engine::with_clock_and_limits`. -/
def withClockAndLimits (clock : Clock) (limits : EngineLimits) : Engine where
  clock := clock
  entries := ∅
  leases := ∅
  tagIndex := ∅
  expiryIndex := ∅
  limits := limits
  memoryUsedBytes := 0
  costScoreTotal := 0
  nextAccess := 0
  stats := ⟨0, 0⟩

/-- The engine after one reading of its clock. -/
def tick (e : Engine) : Engine := { e with clock := e.clock.tick }

/-! ## Removal -/

def removeEntry (e : Engine) (id : EntryId) : Bool × Engine :=
  match e.entries.lookup id with
  | none => (false, e)
  | some entry =>
    (true, { e with
      entries := e.entries.erase id
      leases := e.leases.erase id
      memoryUsedBytes := e.memoryUsedBytes - entry.memoryBytes
      costScoreTotal := e.costScoreTotal.saturatingSub (entry.cost.getD 0)
      expiryIndex :=
        match removableAtMs entry.expiresAtMs entry.staleUntilMs with
        | some removableAt => e.expiryIndex.erase ⟨removableAt, id⟩
        | none => e.expiryIndex
      tagIndex :=
        (tagIds id.ns entry.tags).foldl (fun index tagId => index.discard tagId id) e.tagIndex })

/-- The loop `for id in ids { if self.remove_entry(&id) { …; removed += 1 } }`, with what the loop
does to the engine besides counting. -/
def removeEach (onRemoved : Engine → Engine) : Engine → List EntryId → Nat × Engine
  | e, [] => (0, e)
  | e, id :: ids =>
    match e.removeEntry id with
    | (true, e) =>
      let (removed, e) := removeEach onRemoved (onRemoved e) ids
      (removed + 1, e)
    | (false, e) => removeEach onRemoved e ids

def countExpiration (e : Engine) : Engine :=
  { e with stats := { e.stats with expirations := e.stats.expirations + 1 } }

def countEviction (e : Engine) : Engine :=
  { e with stats := { e.stats with evictions := e.stats.evictions + 1 } }

/-- The first loop of `remove_expired`: pop due keys off the expiry index. -/
def popExpired (maxEntries : Nat) (nowMs : UInt64) (index : Finset ExpiryKey)
    (expired : List EntryId) : List EntryId × Finset ExpiryKey :=
  if expired.length < maxEntries then
    match _h : index.first with
    | none => (expired, index)
    | some key =>
      if key.expiresAtMs > nowMs then (expired, index)
      else popExpired maxEntries nowMs (index.erase key) (expired ++ [key.id])
  else (expired, index)
termination_by index.card
decreasing_by exact Finset.card_erase_first_lt _h

def removeExpired (e : Engine) (maxEntries : Nat) : Nat × Engine :=
  let nowMs := e.clock.nowMs
  let e := e.tick
  let (expired, index) := popExpired maxEntries nowMs e.expiryIndex []
  removeEach countExpiration { e with expiryIndex := index } expired

def reclaimExpiredBudget (e : Engine) (maxEntries : Nat) : Nat × Engine :=
  e.removeExpired maxEntries

def reclaimExpired (e : Engine) : Nat × Engine := e.reclaimExpiredBudget usizeMax

/-! ## Eviction -/

/-- `take` and `min_by_key` over the entries in iteration order; the first of several minima. -/
def leastRecentlyUsedEntry (e : Engine) (o : IterOrder) : Option EntryId :=
  (((o.order e.entries.entries).take lruSampleSize).argmin fun p => p.2.lastAccess.toNat).map
    (·.1)

theorem removeEntry_length_lt {e e' : Engine} {id : EntryId} (h : e.removeEntry id = (true, e')) :
    e'.entries.entries.length < e.entries.entries.length := by
  unfold removeEntry at h
  split at h
  · cases h
  · next entry hl =>
    cases h
    exact HashMap.length_erase_lt hl

def evictUntilFits (o : IterOrder) (e : Engine) (incomingBytes : Nat) : Nat × Engine :=
  if e.memoryUsedBytes + incomingBytes > e.limits.maxMemoryBytes then
    match e.leastRecentlyUsedEntry o with
    | none => (0, e)
    | some id =>
      match _h : e.removeEntry id with
      | (true, e') =>
        let (evicted, e') := evictUntilFits o e'.countEviction incomingBytes
        (evicted + 1, e')
      | (false, e') => (0, e')
  else (0, e)
termination_by e.entries.entries.length
decreasing_by simpa [countEviction] using removeEntry_length_lt _h

/-! ## Writing -/

/-- The first part of `put`'s work on the state: drop the key's old entry, and reclaim expired
entries when the new one does not fit. -/
def dropAndReclaim (e : Engine) (id : EntryId) (entryMemoryBytes : Nat) : Engine :=
  let e := (e.removeEntry id).2
  if e.memoryUsedBytes + entryMemoryBytes > e.limits.maxMemoryBytes then e.reclaimExpired.2 else e

/-- The second part: evict, and return the number of evicted entries. -/
def makeRoom (o : IterOrder) (e : Engine) (id : EntryId) (entryMemoryBytes : Nat) : Nat × Engine :=
  evictUntilFits o (e.dropAndReclaim id entryMemoryBytes) entryMemoryBytes

/-- The last part: store the entry and file it in the indexes. -/
def storeEntry (e : Engine) (id : EntryId) (entry : Entry) : Engine :=
  { e with
    tagIndex := (tagIds id.ns entry.tags).foldl (fun index tagId => index.add tagId id) e.tagIndex
    nextAccess := e.nextAccess.saturatingAdd 1
    expiryIndex :=
      match removableAtMs entry.expiresAtMs entry.staleUntilMs with
      | some removableAt => insert ⟨removableAt, id⟩ e.expiryIndex
      | none => e.expiryIndex
    entries := e.entries.insert id entry
    memoryUsedBytes := e.memoryUsedBytes + entry.memoryBytes
    costScoreTotal := e.costScoreTotal.saturatingAdd (entry.cost.getD 0) }

def put (e : Engine) (o : IterOrder) (command : PutCommand) :
    Except PutError PutOutcome × Engine :=
  if command.value.length > e.limits.maxValueBytes then
    (.error (.valueTooLarge command.value.length e.limits.maxValueBytes), e)
  else
    let nowMs := e.clock.nowMs
    let e := e.tick
    let entryMemoryBytes := estimateEntryMemory command.id command.value command.tags
    if entryMemoryBytes > e.limits.maxMemoryBytes then
      (.error (.valueTooLargeForMemory entryMemoryBytes e.limits.maxMemoryBytes), e)
    else
      let (evicted, e) := makeRoom o e command.id entryMemoryBytes
      if e.memoryUsedBytes + entryMemoryBytes > e.limits.maxMemoryBytes then
        (.error (.insufficientMemory entryMemoryBytes e.memoryUsedBytes e.limits.maxMemoryBytes),
          e)
      else
        (.ok ⟨evicted⟩, e.storeEntry command.id (command.entry nowMs e.nextAccess))

/-! ## Reading -/

/-- Stamp a stored entry with the next access number. -/
def touch (e : Engine) (id : EntryId) (entry : Entry) : Engine :=
  { e with
    nextAccess := e.nextAccess.saturatingAdd 1
    entries := e.entries.insert id { entry with lastAccess := e.nextAccess } }

def getRefInner {R : Type} (e : Engine) (ns : String) (key : Bytes) (updateAccess : Bool)
    (map : GetOutcomeRef → R) : R × Engine :=
  let id : EntryId := ⟨ns, key⟩
  let nowMs := e.clock.nowMs
  let e := e.tick
  match e.entries.lookup id with
  | none => (map .miss, e)
  | some entry =>
    match entryStateAt entry nowMs with
    | .missing => (map .miss, e)
    | .expired => (map .miss, (e.removeEntry id).2)
    | .fresh => (map (.hit entry.value), if updateAccess then e.touch id entry else e)
    | .stale => (map (.stale entry.value), if updateAccess then e.touch id entry else e)

def getRef {R : Type} (e : Engine) (ns : String) (key : Bytes) (map : GetOutcomeRef → R) :
    R × Engine :=
  e.getRefInner ns key true map

def getRefWithoutAccessUpdate {R : Type} (e : Engine) (ns : String) (key : Bytes)
    (map : GetOutcomeRef → R) : R × Engine :=
  e.getRefInner ns key false map

def get (e : Engine) (ns : String) (key : Bytes) : GetOutcome × Engine :=
  e.getRef ns key fun
    | .hit value => .hit value
    | .stale value => .stale value
    | .miss => .miss

def batchGet (e : Engine) (ns : String) : List Bytes → List GetOutcome × Engine
  | [] => ([], e)
  | key :: keys =>
    let (outcome, e) := e.get ns key
    let (outcomes, e) := e.batchGet ns keys
    (outcome :: outcomes, e)

/-! ## Deletion and invalidation -/

/-- `self.leases.remove(&id)`. -/
def dropLease (e : Engine) (id : EntryId) : Engine := { e with leases := e.leases.erase id }

def delete (e : Engine) (ns : String) (key : Bytes) : Bool × Engine :=
  let id : EntryId := ⟨ns, key⟩
  (e.dropLease id).removeEntry id

def invalidateTag (e : Engine) (o : IterOrder) (ns tag : String) : Nat × Engine :=
  let tagId : TagId := ⟨ns, tag⟩
  match e.tagIndex.lookup tagId with
  | none => (0, e)
  | some ids =>
    removeEach (fun e => e) { e with tagIndex := e.tagIndex.erase tagId } (o.order ids.keys)

def tagIdsForEntry (e : Engine) (ns : String) (key : Bytes) : List TagId :=
  ((e.entries.lookup ⟨ns, key⟩).map fun entry => tagIds ns entry.tags).getD []

def hasTagId (e : Engine) (tagId : TagId) : Bool :=
  match e.tagIndex.lookup tagId with
  | some ids => !ids.entries.isEmpty
  | none => false

/-! ## Leases -/

def entryState (e : Engine) (id : EntryId) : EntryState × Engine :=
  match e.entries.lookup id with
  | none => (.missing, e)
  | some entry => (entryStateAt entry e.clock.nowMs, e.tick)

def recordAccess (e : Engine) (id : EntryId) : Engine :=
  match e.entries.lookup id with
  | none => e
  | some entry => e.touch id entry

def activeLease (e : Engine) (id : EntryId) : Option Lease × Engine :=
  match e.leases.lookup id with
  | none => (none, e)
  | some lease => (if e.clock.nowMs ≤ lease.expiresAtMs then some lease else none, e.tick)

def createLease (e : Engine) (id : EntryId) (leaseTtlMs : UInt64) : String × Engine :=
  let token := "lease-" ++ toString e.nextAccess.toNat
  let lease : Lease := ⟨token, e.clock.nowMs.saturatingAdd leaseTtlMs⟩
  (token, { e.tick with
    nextAccess := e.nextAccess.saturatingAdd 1
    leases := e.leases.insert id lease })

def startLeaseForMissing (e : Engine) (id : EntryId) (leaseTtlMs : UInt64) :
    StartLeaseOutcome × Engine :=
  match e.activeLease id with
  | (some _, e) => (.leaseDenied, e)
  | (none, e) =>
    let (token, e) := e.createLease id leaseTtlMs
    (.leaseGranted token none, e)

def startLease (e : Engine) (ns : String) (key : Bytes) (leaseTtlMs : UInt64) :
    StartLeaseOutcome × Engine :=
  let id : EntryId := ⟨ns, key⟩
  let (lease, e) := e.activeLease id
  let hasActiveLease := lease.isSome
  match e.entryState id with
  | (.fresh, e) =>
    let e := e.recordAccess id
    match e.entries.lookup id with
    | some entry => (.hit entry.value, e)
    | none =>
      let (token, e) := e.createLease id leaseTtlMs
      (.leaseGranted token none, e)
  | (.stale, e) =>
    let e := e.recordAccess id
    let staleValue := (e.entries.lookup id).map (·.value)
    if hasActiveLease then (.stale (staleValue.getD []), e)
    else
      let (token, e) := e.createLease id leaseTtlMs
      (.leaseGranted token staleValue, e)
  | (.expired, e) =>
    if hasActiveLease then (.leaseDenied, e)
    else (e.removeEntry id).2.startLeaseForMissing id leaseTtlMs
  | (.missing, e) => e.startLeaseForMissing id leaseTtlMs

def completeLease (e : Engine) (o : IterOrder) (command : CompleteLeaseCommand) :
    Except CompleteLeaseError PutOutcome × Engine :=
  match e.activeLease command.id with
  | (none, e) => (.error .invalidLeaseToken, e.dropLease command.id)
  | (some lease, e) =>
    if lease.token ≠ command.leaseToken then (.error .invalidLeaseToken, e)
    else
      let (result, e) := (e.dropLease command.id).put o command.toPut
      (result.mapError .put, e)

end Engine
end Cachebox
