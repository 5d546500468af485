import Mathlib.Data.List.Lex
import Mathlib.Data.Prod.Lex
import Mathlib.Data.String.Basic
import Cachebox.Theory.MultiMap
import Cachebox.Theory.OrderedSet
import Cachebox.Theory.Word

/-!
# The data model of the engine (`src/engine.rs`)

`u64` values (times, deadlines, access stamps, costs) are `UInt64` and saturate as in the source.
A `usize` is a `Nat`: here it is a length, a count, or a sum of sizes of buffers that are alive at
the same time, which an address space bounds below `2 ^ 64`; so `saturating_add` on sizes is `+`,
and `saturating_sub` is the truncated subtraction. A `HashMap` or `HashSet` is an association list
whose iteration order is an argument (`IterOrder`) of every operation that iterates, and the
`BTreeSet` of expiry keys is a `Finset` of a linear order whose first element is its minimum.
-/

namespace Cachebox

abbrev Bytes := List UInt8

/-- `usize::MAX` on the 64-bit targets the program is built for. -/
def usizeMax : Nat := 2 ^ 64 - 1

def entryOverheadBytes : Nat := 96
def lruSampleSize : Nat := 16

/-- A time-to-live of the protocol crate. -/
structure Ttl where
  milliseconds : UInt64
  deriving DecidableEq, Repr

/-- A clock is the sequence of values its `now_ms` returns, one per call, together with the number
of calls made so far. Nothing is assumed about the values. -/
structure Clock where
  readings : Nat → UInt64
  reads : Nat

/-- The value the next call of `now_ms` returns. -/
def Clock.nowMs (c : Clock) : UInt64 := c.readings c.reads

def Clock.tick (c : Clock) : Clock := { c with reads := c.reads + 1 }

structure EngineLimits where
  maxMemoryBytes : Nat
  maxValueBytes : Nat
  deriving DecidableEq, Repr

/-- `EngineLimits::default`. -/
instance : Inhabited EngineLimits := ⟨64 * 1024 * 1024, 8 * 1024 * 1024⟩

/-- The counters of an engine. They are words of 64 bits in the source, and `Nat` here counts what
they count as long as it is below `2 ^ 64`. -/
structure EngineStats where
  expirations : Nat
  evictions : Nat
  deriving DecidableEq, Repr

structure EntryId where
  ns : String
  key : Bytes
  deriving DecidableEq, Repr

structure TagId where
  ns : String
  tag : String
  deriving DecidableEq, Repr

structure ExpiryKey where
  expiresAtMs : UInt64
  id : EntryId
  deriving Repr

/-- The derived `Ord` of `ExpiryKey`: the deadline, then the namespace, then the key bytes. -/
def ExpiryKey.rank (k : ExpiryKey) : Nat ×ₗ String ×ₗ List Nat :=
  toLex (k.expiresAtMs.toNat, toLex (k.id.ns, k.id.key.map UInt8.toNat))

theorem ExpiryKey.rank_injective : Function.Injective ExpiryKey.rank := by
  rintro ⟨t, ns, key⟩ ⟨t', ns', key'⟩ h
  simp only [rank, EmbeddingLike.apply_eq_iff_eq, Prod.mk.injEq, UInt64.toNat_inj] at h
  obtain ⟨rfl, rfl, hkey⟩ := h
  rw [List.map_injective_iff.mpr (fun _ _ => UInt8.toNat_inj.mp) hkey]

instance : LinearOrder ExpiryKey := LinearOrder.lift' ExpiryKey.rank ExpiryKey.rank_injective

theorem ExpiryKey.expiresAtMs_le {k k' : ExpiryKey} (h : k ≤ k') :
    k.expiresAtMs ≤ k'.expiresAtMs := by
  have hrank : k.rank ≤ k'.rank := h
  rw [Prod.Lex.le_iff] at hrank
  rw [UInt64.le_iff_toNat_le]
  exact hrank.elim Nat.le_of_lt fun heq => Nat.le_of_eq heq.1

structure Entry where
  value : Bytes
  expiresAtMs : Option UInt64
  staleUntilMs : Option UInt64
  tags : List String
  cost : Option UInt64
  memoryBytes : Nat
  lastAccess : UInt64
  deriving DecidableEq, Repr

structure Lease where
  token : String
  expiresAtMs : UInt64
  deriving DecidableEq, Repr

inductive EntryState where
  | missing | fresh | stale | expired
  deriving DecidableEq, Repr

structure PutCommand where
  ns : String
  key : Bytes
  value : Bytes
  ttl : Option Ttl
  staleTtl : Option Ttl
  tags : List String
  cost : Option UInt64
  deriving DecidableEq, Repr

structure CompleteLeaseCommand where
  ns : String
  key : Bytes
  leaseToken : String
  value : Bytes
  ttl : Option Ttl
  staleTtl : Option Ttl
  tags : List String
  cost : Option UInt64
  deriving DecidableEq, Repr

structure PutOutcome where
  evicted : Nat
  deriving DecidableEq, Repr

inductive PutError where
  | valueTooLarge (valueBytes maxValueBytes : Nat)
  | valueTooLargeForMemory (entryBytes maxMemoryBytes : Nat)
  | insufficientMemory (requiredBytes memoryUsedBytes maxMemoryBytes : Nat)
  deriving DecidableEq, Repr

inductive CompleteLeaseError where
  | invalidLeaseToken
  | put (error : PutError)
  deriving DecidableEq, Repr

inductive StartLeaseOutcome where
  | hit (value : Bytes)
  | stale (value : Bytes)
  | leaseGranted (token : String) (staleValue : Option Bytes)
  | leaseDenied
  deriving DecidableEq, Repr

inductive GetOutcome where
  | hit (value : Bytes)
  | stale (value : Bytes)
  | miss
  deriving DecidableEq, Repr

/-- `GetOutcomeRef`, whose borrowed slices are the bytes they point to. -/
inductive GetOutcomeRef where
  | hit (value : Bytes)
  | stale (value : Bytes)
  | miss
  deriving DecidableEq, Repr

structure Engine where
  clock : Clock
  entries : HashMap EntryId Entry
  leases : HashMap EntryId Lease
  tagIndex : MultiMap TagId EntryId
  expiryIndex : Finset ExpiryKey
  limits : EngineLimits
  memoryUsedBytes : Nat
  costScoreTotal : UInt64
  nextAccess : UInt64
  stats : EngineStats

def estimateEntryMemory (id : EntryId) (value : Bytes) (tags : List String) : Nat :=
  entryOverheadBytes + id.ns.utf8ByteSize + id.key.length + value.length +
    (tags.map String.utf8ByteSize).sum

def tagIds (ns : String) (tags : List String) : List TagId := tags.map fun tag => ⟨ns, tag⟩

def removableAtMs (expiresAtMs staleUntilMs : Option UInt64) : Option UInt64 :=
  staleUntilMs.or expiresAtMs

def entryStateAt (entry : Entry) (nowMs : UInt64) : EntryState :=
  match entry.expiresAtMs, entry.staleUntilMs with
  | none, _ => .fresh
  | some expiresAt, staleUntil =>
    if nowMs ≤ expiresAt then .fresh
    else
      match staleUntil with
      | some staleUntil => if nowMs ≤ staleUntil then .stale else .expired
      | none => .expired

/-- The identifier of a put command's entry. -/
def PutCommand.id (command : PutCommand) : EntryId := ⟨command.ns, command.key⟩

def PutCommand.expiresAtMs (command : PutCommand) (nowMs : UInt64) : Option UInt64 :=
  command.ttl.map fun ttl => nowMs.saturatingAdd ttl.milliseconds

def PutCommand.staleUntilMs (command : PutCommand) (nowMs : UInt64) : Option UInt64 :=
  match command.expiresAtMs nowMs, command.staleTtl with
  | some expiresAt, some staleTtl => some (expiresAt.saturatingAdd staleTtl.milliseconds)
  | _, _ => none

/-- The entry `put` stores. -/
def PutCommand.entry (command : PutCommand) (nowMs lastAccess : UInt64) : Entry where
  value := command.value
  expiresAtMs := command.expiresAtMs nowMs
  staleUntilMs := command.staleUntilMs nowMs
  tags := command.tags
  cost := command.cost
  memoryBytes := estimateEntryMemory command.id command.value command.tags
  lastAccess := lastAccess

/-- The identifier of the entry a lease completion writes. -/
def CompleteLeaseCommand.id (command : CompleteLeaseCommand) : EntryId :=
  ⟨command.ns, command.key⟩

/-- The put a lease completion performs once its token has been accepted. -/
def CompleteLeaseCommand.toPut (command : CompleteLeaseCommand) : PutCommand :=
  { ns := command.ns, key := command.key, value := command.value, ttl := command.ttl
    staleTtl := command.staleTtl, tags := command.tags, cost := command.cost }

end Cachebox
