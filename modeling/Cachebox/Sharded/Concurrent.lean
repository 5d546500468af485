import Cachebox.Sharded.Routing
import Cachebox.Theory.Pool

/-!
# Concurrent callers of the sharded engine

`Call` is what is left to do of a call of a `ShardedEngine` method, and `advance` runs its next
section: a put runs a section on the shard of its key and, if routes change, one on the directory;
`invalidate_tag` runs a section on the directory and one on each routed shard; a batch get locks
the shard of each key in turn, and `reclaim_expired_budget` each shard. Between two sections of one
call any sections of other calls may run (`Pool.step`).
-/

namespace Cachebox

/-- What is left to do of a call. -/
inductive Call (n : Nat) where
  | put (o : IterOrder) (command : PutCommand)
  | completeLease (o : IterOrder) (command : CompleteLeaseCommand)
  | delete (ns : String) (key : Bytes)
  | updateTagRoutes (i : Fin n) (routes : RouteUpdate) (outcome : Outcome)
  | invalidateTag (o : IterOrder) (ns tag : String)
  | invalidateShards (o : IterOrder) (ns tag : String) (indices : List (Fin n)) (removed : Nat)
  | get (ns : String) (key : Bytes)
  | getRef (ns : String) (key : Bytes)
  | getRefWithoutAccessUpdate (ns : String) (key : Bytes)
  | startLease (ns : String) (key : Bytes) (leaseTtlMs : UInt64)
  | batchGet (ns : String) (keys : List Bytes) (outcomes : List GetOutcome)
  | reclaimShards (indices : List (Fin n)) (remaining removed : Nat)

namespace Call

variable {n : Nat}

/-- The call of a method, before its first section. -/
def ofOp : Op → Call n
  | .put o command => .put o command
  | .get ns key => .get ns key
  | .getRef ns key => .getRef ns key
  | .getRefWithoutAccessUpdate ns key => .getRefWithoutAccessUpdate ns key
  | .batchGet ns keys => .batchGet ns keys []
  | .delete ns key => .delete ns key
  | .invalidateTag o ns tag => .invalidateTag o ns tag
  | .startLease ns key leaseTtlMs => .startLease ns key leaseTtlMs
  | .completeLease o command => .completeLease o command
  | .reclaimExpiredBudget maxEntries => .reclaimShards (List.finRange n) maxEntries 0

abbrev Progress (n : Nat) := Pool.Progress (Call n) Outcome

/-- A call with routes to update goes on to the directory. -/
def thenRoutes (i : Fin n) (routes : RouteUpdate) (outcome : Outcome) : Progress n :=
  if routes.addTags.isEmpty && routes.removeTags.isEmpty then .done outcome
  else .more (.updateTagRoutes i routes outcome)

/-- An invalidation goes on to the next routed shard. -/
def thenShards (o : IterOrder) (ns tag : String) (indices : List (Fin n)) (removed : Nat) :
    Progress n :=
  if indices.isEmpty then .done (.invalidateTag removed)
  else .more (.invalidateShards o ns tag indices removed)

variable [NeZero n] (hash : String → Bytes → Nat)

/-- Run the next section of a call. -/
def advance (s : ShardedEngine n) : Call n → Progress n × ShardedEngine n
  | .put o command =>
    let i := ShardedEngine.shardIndexFor hash command.ns command.key
    let ((result, routes), s) := s.onShard i (Engine.putSection o command)
    (thenRoutes i routes (.put result), s)
  | .completeLease o command =>
    let i := ShardedEngine.shardIndexFor hash command.ns command.key
    let ((result, routes), s) := s.onShard i (Engine.completeLeaseSection o command)
    (thenRoutes i routes (.completeLease result), s)
  | .delete ns key =>
    let i := ShardedEngine.shardIndexFor hash ns key
    let ((removed, routes), s) := s.onShard i (Engine.deleteSection ns key)
    (thenRoutes i routes (.delete removed), s)
  | .updateTagRoutes i routes outcome => (.done outcome, s.updateTagRoutes i routes)
  | .invalidateTag o ns tag =>
    let (indices, s) := s.takeRoutes o ⟨ns, tag⟩
    (thenShards o ns tag indices 0, s)
  | .invalidateShards _ _ _ [] removed => (.done (.invalidateTag removed), s)
  | .invalidateShards o ns tag (i :: indices) removed =>
    let (shardRemoved, s) := s.onShard i fun shard => shard.invalidateTag o ns tag
    (thenShards o ns tag indices (removed + shardRemoved), s)
  | .get ns key => (s.get hash ns key).map (.done ∘ .get) id
  | .getRef ns key => (s.getRef hash ns key id).map (.done ∘ .getRef) id
  | .getRefWithoutAccessUpdate ns key =>
    (s.getRefWithoutAccessUpdate hash ns key id).map (.done ∘ .getRef) id
  | .startLease ns key leaseTtlMs =>
    (s.startLease hash ns key leaseTtlMs).map (.done ∘ .startLease) id
  | .batchGet _ [] outcomes => (.done (.batchGet outcomes), s)
  | .batchGet ns (key :: keys) outcomes =>
    let (outcome, s) := s.get hash ns key
    (.more (.batchGet ns keys (outcomes ++ [outcome])), s)
  | .reclaimShards [] _ removed => (.done (.reclaimExpiredBudget removed), s)
  | .reclaimShards (i :: indices) remaining removed =>
    if remaining = 0 then (.done (.reclaimExpiredBudget removed), s)
    else
      let (shardRemoved, s) := s.onShard i fun shard => shard.reclaimExpiredBudget remaining
      (.more (.reclaimShards indices (remaining - shardRemoved) (removed + shardRemoved)), s)

/-! ## A call on its own -/

variable {s : ShardedEngine n}

theorem finishes_thenRoutes {s₀ : ShardedEngine n} {call : Call n} {i : Fin n}
    {routes : RouteUpdate} {outcome : Outcome}
    (h : advance hash s₀ call = (thenRoutes i routes outcome, s)) :
    Pool.Finishes (advance hash) s₀ call outcome (s.updateTagRoutes i routes) := by
  unfold thenRoutes at h
  split at h
  · next hempty =>
    have hroutes : s.updateTagRoutes i routes = s := by
      rw [ShardedEngine.updateTagRoutes, if_pos hempty]
    rw [hroutes]
    exact .done h
  · exact .more h (.done rfl)

theorem finishes_thenShards (o : IterOrder) (ns tag : String) {s₀ : ShardedEngine n} {call : Call n}
    {indices : List (Fin n)} {removed : Nat}
    (h : advance hash s₀ call = (thenShards o ns tag indices removed, s)) :
    Pool.Finishes (advance hash) s₀ call
      (.invalidateTag (removed + (ShardedEngine.invalidateShards o ns tag indices s).1))
      (ShardedEngine.invalidateShards o ns tag indices s).2 := by
  induction indices generalizing s₀ s call removed with
  | nil => exact .done h
  | cons i indices ih =>
    have hnext : advance hash s (.invalidateShards o ns tag (i :: indices) removed) =
        (thenShards o ns tag indices (removed + ((s.shards i).invalidateTag o ns tag).1),
          (s.onShard i fun shard => shard.invalidateTag o ns tag).2) := rfl
    have hrest := ih hnext
    rw [Nat.add_assoc] at hrest
    exact .more h hrest

theorem finishes_batchGet (ns : String) (keys : List Bytes) (outcomes : List GetOutcome)
    (s : ShardedEngine n) :
    Pool.Finishes (advance hash) s (.batchGet ns keys outcomes)
      (.batchGet (outcomes ++ (ShardedEngine.batchGet hash ns keys s).1))
      (ShardedEngine.batchGet hash ns keys s).2 := by
  induction keys generalizing s outcomes with
  | nil =>
    rw [ShardedEngine.batchGet, List.append_nil]
    exact .done rfl
  | cons key keys ih =>
    have hrest := ih (outcomes ++ [(s.get hash ns key).1]) (s.get hash ns key).2
    rw [List.append_assoc] at hrest
    exact .more rfl hrest

theorem finishes_reclaimShards (indices : List (Fin n)) (remaining removed : Nat)
    (s : ShardedEngine n) :
    Pool.Finishes (advance hash) s (.reclaimShards indices remaining removed)
      (.reclaimExpiredBudget
        (removed + (ShardedEngine.reclaimShards indices remaining s).1))
      (ShardedEngine.reclaimShards indices remaining s).2 := by
  induction indices generalizing s remaining removed with
  | nil => exact .done rfl
  | cons i indices ih =>
    by_cases hzero : remaining = 0
    · subst hzero
      exact .done rfl
    · have hadvance : advance hash s (.reclaimShards (i :: indices) remaining removed) = _ :=
        if_neg hzero
      have hreclaim : ShardedEngine.reclaimShards (i :: indices) remaining s = _ := if_neg hzero
      rw [hreclaim]
      have hrest := ih (remaining - ((s.shards i).reclaimExpiredBudget remaining).1)
        (removed + ((s.shards i).reclaimExpiredBudget remaining).1)
        (s.onShard i fun shard => shard.reclaimExpiredBudget remaining).2
      rw [Nat.add_assoc] at hrest
      exact .more hadvance hrest

/-- A call that no other call interleaves with is the sequential operation. -/
theorem finishes_exec (s : ShardedEngine n) (op : Op) :
    Pool.Finishes (advance hash) s (ofOp op) (s.exec hash op).1 (s.exec hash op).2 := by
  cases op with
  | put | completeLease | delete => exact finishes_thenRoutes hash rfl
  | get | getRef | getRefWithoutAccessUpdate | startLease => exact .done rfl
  | batchGet ns keys => exact finishes_batchGet hash ns keys [] s
  | invalidateTag o ns tag =>
    have hfirst : advance hash s (.invalidateTag o ns tag) =
        (thenShards o ns tag (s.takeRoutes o ⟨ns, tag⟩).1 0, (s.takeRoutes o ⟨ns, tag⟩).2) := rfl
    have h := finishes_thenShards hash o ns tag hfirst
    rw [Nat.zero_add] at h
    exact h
  | reclaimExpiredBudget maxEntries =>
    have h := finishes_reclaimShards hash (List.finRange n) maxEntries 0 s
    rw [Nat.zero_add] at h
    exact h

end Call
end Cachebox
