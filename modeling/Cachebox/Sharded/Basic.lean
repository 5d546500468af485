import Mathlib.Data.List.FinRange
import Cachebox.Engine.Step

/-!
# The sharded engine (`ShardedEngine`)

A sharded engine is a family of engines, each behind its own mutex, and a directory that routes a
tag to the shards that may hold entries with it, behind another mutex. A method is a sequence of
sections, each of which runs under one lock: `onShard` runs a section on one shard and
`updateTagRoutes` is the section on the directory. Here a method runs its sections in a row; the
interleavings of several callers are in `Cachebox.Sharded.Concurrent`.

The hash of a namespace and a key is a parameter, and every shard has its own copy of the clock.
-/

namespace Cachebox

structure ShardedEngine (n : Nat) where
  shards : Fin n → Engine
  tagDirectory : MultiMap TagId (Fin n)
  limits : EngineLimits

/-- `usize::div_ceil`. -/
def divCeil (a b : Nat) : Nat := if a % b = 0 then a / b else a / b + 1

/-- The limits of one of `n` shards. -/
def EngineLimits.forShard (limits : EngineLimits) (n : Nat) : EngineLimits where
  maxMemoryBytes := divCeil limits.maxMemoryBytes n
  maxValueBytes := limits.maxValueBytes

/-- The change of routes that a section on a shard asks for. -/
structure RouteUpdate where
  addTags : List TagId
  removeTags : List TagId
  deriving DecidableEq, Repr

namespace Engine

/-- The section of `put` and `complete_lease` on the shard of the key: run the write, and find the
old tags of the key that no entry of the shard has any more. -/
def writeSection {ε : Type} (ns : String) (key : Bytes) (tags : List String)
    (write : Engine → Except ε PutOutcome × Engine) (shard : Engine) :
    (Except ε PutOutcome × RouteUpdate) × Engine :=
  let oldTags := shard.tagIdsForEntry ns key
  let (result, shard) := write shard
  let oldTagsWithoutEntries := oldTags.filter fun tagId => !shard.hasTagId tagId
  ((result, ⟨if result.isOk then tagIds ns tags else [], oldTagsWithoutEntries⟩), shard)

def putSection (o : IterOrder) (command : PutCommand) :
    Engine → (Except PutError PutOutcome × RouteUpdate) × Engine :=
  writeSection command.ns command.key command.tags fun shard => shard.put o command

def completeLeaseSection (o : IterOrder) (command : CompleteLeaseCommand) :
    Engine → (Except CompleteLeaseError PutOutcome × RouteUpdate) × Engine :=
  writeSection command.ns command.key command.tags fun shard => shard.completeLease o command

/-- The section of `delete` on the shard of the key. Routes change only if an entry was removed. -/
def deleteSection (ns : String) (key : Bytes) (shard : Engine) : (Bool × RouteUpdate) × Engine :=
  let oldTags := shard.tagIdsForEntry ns key
  let (removed, shard) := shard.delete ns key
  let oldTagsWithoutEntries := oldTags.filter fun tagId => !shard.hasTagId tagId
  ((removed, ⟨[], if removed then oldTagsWithoutEntries else []⟩), shard)

end Engine

namespace ShardedEngine

variable {n : Nat}

/-- `ShardedEngine::with_clock_and_limits`. -/
def withClockAndLimits (clocks : Fin n → Clock) (limits : EngineLimits) : ShardedEngine n where
  shards := fun i => Engine.withClockAndLimits (clocks i) (limits.forShard n)
  tagDirectory := ∅
  limits := limits

def memoryUsedBytes (s : ShardedEngine n) : Nat :=
  ((List.finRange n).map fun i => (s.shards i).memoryUsedBytes).sum

/-- Run a section under the lock of shard `i`. -/
def onShard {α : Type} (s : ShardedEngine n) (i : Fin n) (body : Engine → α × Engine) :
    α × ShardedEngine n :=
  let (a, shard) := body (s.shards i)
  (a, { s with shards := Function.update s.shards i shard })

/-- The section of `update_tag_routes` on the directory. With no tags to add or to remove the
source does not take the lock. -/
def updateTagRoutes (s : ShardedEngine n) (i : Fin n) (routes : RouteUpdate) : ShardedEngine n :=
  if routes.addTags.isEmpty && routes.removeTags.isEmpty then s
  else
    let directory :=
      routes.removeTags.foldl (fun directory tagId => directory.discard tagId i) s.tagDirectory
    { s with
      tagDirectory :=
        routes.addTags.foldl (fun directory tagId => directory.add tagId i) directory }

/-- The section of `invalidate_tag` on the directory: take the routes of the tag out. -/
def takeRoutes (s : ShardedEngine n) (o : IterOrder) (tagId : TagId) :
    List (Fin n) × ShardedEngine n :=
  match s.tagDirectory.lookup tagId with
  | none => ([], s)
  | some indices =>
    (o.order indices.keys, { s with tagDirectory := s.tagDirectory.erase tagId })

/-- The sections of `invalidate_tag` on the routed shards. -/
def invalidateShards (o : IterOrder) (ns tag : String) :
    List (Fin n) → ShardedEngine n → Nat × ShardedEngine n
  | [], s => (0, s)
  | i :: indices, s =>
    let (removed, s) := s.onShard i fun shard => shard.invalidateTag o ns tag
    let (rest, s) := invalidateShards o ns tag indices s
    (removed + rest, s)

def invalidateTag (s : ShardedEngine n) (o : IterOrder) (ns tag : String) :
    Nat × ShardedEngine n :=
  let (indices, s) := s.takeRoutes o ⟨ns, tag⟩
  invalidateShards o ns tag indices s

/-- The loop of `reclaim_expired_budget` over the shards. -/
def reclaimShards : List (Fin n) → Nat → ShardedEngine n → Nat × ShardedEngine n
  | [], _, s => (0, s)
  | i :: indices, remaining, s =>
    if remaining = 0 then (0, s)
    else
      let (shardRemoved, s) := s.onShard i fun shard => shard.reclaimExpiredBudget remaining
      let (removed, s) := reclaimShards indices (remaining - shardRemoved) s
      (shardRemoved + removed, s)

def reclaimExpiredBudget (s : ShardedEngine n) (maxEntries : Nat) : Nat × ShardedEngine n :=
  reclaimShards (List.finRange n) maxEntries s

section
variable [NeZero n] (hash : String → Bytes → Nat)

def shardIndexFor (ns : String) (key : Bytes) : Fin n :=
  ⟨hash ns key % n, Nat.mod_lt _ (NeZero.pos n)⟩

def put (s : ShardedEngine n) (o : IterOrder) (command : PutCommand) :
    Except PutError PutOutcome × ShardedEngine n :=
  let shardIndex := shardIndexFor hash command.ns command.key
  let ((result, routes), s) := s.onShard shardIndex (Engine.putSection o command)
  (result, s.updateTagRoutes shardIndex routes)

def completeLease (s : ShardedEngine n) (o : IterOrder) (command : CompleteLeaseCommand) :
    Except CompleteLeaseError PutOutcome × ShardedEngine n :=
  let shardIndex := shardIndexFor hash command.ns command.key
  let ((result, routes), s) := s.onShard shardIndex (Engine.completeLeaseSection o command)
  (result, s.updateTagRoutes shardIndex routes)

def delete (s : ShardedEngine n) (ns : String) (key : Bytes) : Bool × ShardedEngine n :=
  let shardIndex := shardIndexFor hash ns key
  let ((removed, routes), s) := s.onShard shardIndex (Engine.deleteSection ns key)
  (removed, s.updateTagRoutes shardIndex routes)

def getRef {R : Type} (s : ShardedEngine n) (ns : String) (key : Bytes) (map : GetOutcomeRef → R) :
    R × ShardedEngine n :=
  s.onShard (shardIndexFor hash ns key) fun shard => shard.getRef ns key map

def getRefWithoutAccessUpdate {R : Type} (s : ShardedEngine n) (ns : String) (key : Bytes)
    (map : GetOutcomeRef → R) : R × ShardedEngine n :=
  s.onShard (shardIndexFor hash ns key) fun shard => shard.getRefWithoutAccessUpdate ns key map

def get (s : ShardedEngine n) (ns : String) (key : Bytes) : GetOutcome × ShardedEngine n :=
  s.onShard (shardIndexFor hash ns key) fun shard => shard.get ns key

def batchGet (ns : String) : List Bytes → ShardedEngine n → List GetOutcome × ShardedEngine n
  | [], s => ([], s)
  | key :: keys, s =>
    let (outcome, s) := s.get hash ns key
    let (outcomes, s) := batchGet ns keys s
    (outcome :: outcomes, s)

def startLease (s : ShardedEngine n) (ns : String) (key : Bytes) (leaseTtlMs : UInt64) :
    StartLeaseOutcome × ShardedEngine n :=
  s.onShard (shardIndexFor hash ns key) fun shard => shard.startLease ns key leaseTtlMs

/-- The public operations of the sharded engine are those of the engine. -/
def exec (s : ShardedEngine n) : Op → Outcome × ShardedEngine n
  | .put o command => (s.put hash o command).map .put id
  | .get ns key => (s.get hash ns key).map .get id
  | .getRef ns key => (s.getRef hash ns key id).map .getRef id
  | .getRefWithoutAccessUpdate ns key =>
    (s.getRefWithoutAccessUpdate hash ns key id).map .getRef id
  | .batchGet ns keys => (batchGet hash ns keys s).map .batchGet id
  | .delete ns key => (s.delete hash ns key).map .delete id
  | .invalidateTag o ns tag => (s.invalidateTag o ns tag).map .invalidateTag id
  | .startLease ns key leaseTtlMs => (s.startLease hash ns key leaseTtlMs).map .startLease id
  | .completeLease o command => (s.completeLease hash o command).map .completeLease id
  | .reclaimExpiredBudget maxEntries =>
    (s.reclaimExpiredBudget maxEntries).map .reclaimExpiredBudget id

abbrev run (s : ShardedEngine n) (ops : List Op) : ShardedEngine n :=
  Machine.run (exec hash) s ops

end
end ShardedEngine
end Cachebox
