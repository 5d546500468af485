import Cachebox.Engine.LeaseTokens
import Cachebox.Sharded.Concurrent
import Cachebox.Theory.Atomic

/-!
# Concurrent calls are atomic shard by shard

The sections of the calls of a sharded engine are operations of single shards, and the directory
only decides which shards an invalidation visits. So every interleaving of calls can be put in one
order of operations on shards: a call that names one key is one operation of the shard of its key,
between its start and its return, and a call that visits several shards is one operation on each.
Restricted to a shard, that order is a sequential run of an `Engine`, and what is known of such runs
holds under concurrency.
-/

namespace Cachebox
namespace Call

/-! ## Operations on shards -/

/-- An operation on one of the shards. -/
abbrev ShardOp (n : Nat) := Fin n × Op

variable {n : Nat}

def execOnShard (shards : Fin n → Engine) (atom : ShardOp n) : Outcome × (Fin n → Engine) :=
  let (outcome, shard) := (shards atom.1).exec atom.2
  (outcome, Function.update shards atom.1 shard)

/-- The key of an operation that names one key. -/
def entryId? : Op → Option EntryId
  | .put _ command => some command.id
  | .completeLease _ command => some command.id
  | .get ns key | .getRef ns key | .getRefWithoutAccessUpdate ns key | .delete ns key
  | .startLease ns key _ => some ⟨ns, key⟩
  | .batchGet .. | .invalidateTag .. | .reclaimExpiredBudget _ => none

/-- The operations of a reclaim with a budget on the shards in `indices`, and how many entries they
remove. It stops when the budget is used up. -/
inductive Sweep : (indices : List (Fin n)) → (budget : Nat) → List (ShardOp n × Outcome) →
    (removed : Nat) → Prop
  | nil {budget : Nat} : Sweep [] budget [] 0
  | spent {indices : List (Fin n)} : Sweep indices 0 [] 0
  | cons {i : Fin n} {indices : List (Fin n)} {budget k removed : Nat}
    {effects : List (ShardOp n × Outcome)} : budget ≠ 0 →
    Sweep indices (budget - k) effects removed →
    Sweep (i :: indices) budget
      (((i, .reclaimExpiredBudget budget), .reclaimExpiredBudget k) :: effects) (k + removed)

/-- The reads of a batch, each on the shard of its key. -/
def batchReads [NeZero n] (hash : String → Bytes → Nat) (ns : String)
    (reads : List (Bytes × GetOutcome)) : List (ShardOp n × Outcome) :=
  reads.map fun read =>
    ((ShardedEngine.shardIndexFor hash ns read.1, .get ns read.1), .get read.2)

/-- The invalidations of a tag, with the number of entries removed from each shard. -/
def tagRemovals (o : IterOrder) (ns tag : String) (removals : List (Fin n × Nat)) :
    List (ShardOp n × Outcome) :=
  removals.map fun removal => ((removal.1, .invalidateTag o ns tag), .invalidateTag removal.2)

/-- The operations on shards that a call of `op` consists of, and its outcome. -/
def Returns [NeZero n] (hash : String → Bytes → Nat) (op : Op)
    (done : List (ShardOp n × Outcome)) (outcome : Outcome) : Prop :=
  match op with
  | .batchGet ns keys => ∃ reads : List (Bytes × GetOutcome), reads.map Prod.fst = keys ∧
    done = batchReads hash ns reads ∧ outcome = .batchGet (reads.map Prod.snd)
  | .invalidateTag o ns tag => ∃ removals : List (Fin n × Nat),
    (removals.map Prod.fst).Nodup ∧ done = tagRemovals o ns tag removals ∧
      outcome = .invalidateTag (removals.map Prod.snd).sum
  | .reclaimExpiredBudget maxEntries => ∃ removed,
    Sweep (List.finRange n) maxEntries done removed ∧ outcome = .reclaimExpiredBudget removed
  | op => ∃ id, entryId? op = some id ∧
    done = [((ShardedEngine.shardIndexFor hash id.ns id.key, op), outcome)]

/-! ## The sections of a call -/

section
variable [NeZero n] {hash : String → Bytes → Nat}

theorem returns_of_entryId {op : Op} {id : EntryId} (h : entryId? op = some id)
    (outcome : Outcome) :
    Returns (n := n) hash op [((ShardedEngine.shardIndexFor hash id.ns id.key, op), outcome)]
      outcome := by
  cases op with
  | batchGet | invalidateTag | reclaimExpiredBudget => cases h
  | _ => exact ⟨id, h, rfl⟩

/-- What can be left to do of a call after some operations on shards. -/
inductive Does (hash : String → Bytes → Nat) : Call n → Op → List (ShardOp n × Outcome) → Prop
  | start (op : Op) : Does hash (ofOp op) op []
  | routes {i : Fin n} {routes : RouteUpdate} {outcome : Outcome} {op : Op}
    {done : List (ShardOp n × Outcome)} : Returns hash op done outcome →
    Does hash (.updateTagRoutes i routes outcome) op done
  | shards {o : IterOrder} {ns tag : String} {indices : List (Fin n)}
    {removals : List (Fin n × Nat)} : (removals.map Prod.fst ++ indices).Nodup →
    Does hash (.invalidateShards o ns tag indices (removals.map Prod.snd).sum)
      (.invalidateTag o ns tag) (tagRemovals o ns tag removals)
  | batch {ns : String} {keys : List Bytes} {reads : List (Bytes × GetOutcome)} :
    Does hash (.batchGet ns keys (reads.map Prod.snd))
      (.batchGet ns (reads.map Prod.fst ++ keys)) (batchReads hash ns reads)
  | sweep {indices : List (Fin n)} {remaining removed maxEntries : Nat}
    {done : List (ShardOp n × Outcome)} :
    (∀ rest more, Sweep indices remaining rest more →
      Sweep (List.finRange n) maxEntries (done ++ rest) (removed + more)) →
    Does hash (.reclaimShards indices remaining removed) (.reclaimExpiredBudget maxEntries) done

abbrev Continues (hash : String → Bytes → Nat) (op : Op) (done : List (ShardOp n × Outcome)) :
    Progress n → Prop :=
  Atomic.Continues (Does hash) (Returns hash) op done

theorem continues_thenRoutes {op : Op} {done : List (ShardOp n × Outcome)} {outcome : Outcome}
    (h : Returns hash op done outcome) (i : Fin n) (routes : RouteUpdate) :
    Continues hash op done (thenRoutes i routes outcome) := by
  unfold thenRoutes
  split
  · exact h
  · exact .routes h

theorem continues_thenShards (o : IterOrder) (ns tag : String) {indices : List (Fin n)}
    {removals : List (Fin n × Nat)} (h : (removals.map Prod.fst ++ indices).Nodup) :
    Continues hash (.invalidateTag o ns tag) (tagRemovals o ns tag removals)
      (thenShards o ns tag indices (removals.map Prod.snd).sum) := by
  unfold thenShards
  split
  · exact ⟨removals, h.of_append_left, rfl, rfl⟩
  · exact .shards h

/-- A section runs at most one operation on a shard. -/
def Runs (hash : String → Bytes → Nat) (s : ShardedEngine n) (call : Call n) (op : Op)
    (done : List (ShardOp n × Outcome)) : Prop :=
  ((advance hash s call).2.shards = s.shards ∧ Continues hash op done (advance hash s call).1) ∨
    ∃ atom, (advance hash s call).2.shards = (execOnShard s.shards atom).2 ∧
      Continues hash op (done ++ [(atom, (execOnShard s.shards atom).1)]) (advance hash s call).1

theorem runs_invalidateShards (s : ShardedEngine n) (o : IterOrder) (ns tag : String)
    {indices : List (Fin n)} {removals : List (Fin n × Nat)}
    (h : (removals.map Prod.fst ++ indices).Nodup) :
    Runs hash s (.invalidateShards o ns tag indices (removals.map Prod.snd).sum)
      (.invalidateTag o ns tag) (tagRemovals o ns tag removals) := by
  cases indices with
  | nil =>
    rw [List.append_nil] at h
    exact .inl ⟨rfl, removals, h, rfl, rfl⟩
  | cons i indices =>
    refine .inr ⟨(i, .invalidateTag o ns tag), rfl, ?_⟩
    have hnext := @continues_thenShards n _ hash o ns tag indices
      (removals ++ [(i, ((s.shards i).invalidateTag o ns tag).1)]) (by simpa using h)
    rw [tagRemovals, List.map_append, List.map_append, List.sum_append] at hnext
    exact hnext

theorem runs_batchGet (s : ShardedEngine n) (ns : String) (keys : List Bytes)
    (reads : List (Bytes × GetOutcome)) :
    Runs hash s (.batchGet ns keys (reads.map Prod.snd))
      (.batchGet ns (reads.map Prod.fst ++ keys)) (batchReads hash ns reads) := by
  cases keys with
  | nil => exact .inl ⟨rfl, reads, (List.append_nil _).symm, rfl, rfl⟩
  | cons key keys =>
    refine .inr ⟨(ShardedEngine.shardIndexFor hash ns key, .get ns key), rfl, ?_⟩
    have hnext := @Does.batch n _ hash ns keys (reads ++ [(key, (s.get hash ns key).1)])
    rw [batchReads, List.map_append, List.map_append, List.map_append, List.append_assoc] at hnext
    exact hnext

theorem runs_reclaimShards (s : ShardedEngine n) {indices : List (Fin n)}
    {remaining removed maxEntries : Nat} {done : List (ShardOp n × Outcome)}
    (h : ∀ rest more, Sweep indices remaining rest more →
      Sweep (List.finRange n) maxEntries (done ++ rest) (removed + more)) :
    Runs hash s (.reclaimShards indices remaining removed) (.reclaimExpiredBudget maxEntries)
      done := by
  have hdone : Sweep indices remaining [] 0 →
      Returns hash (.reclaimExpiredBudget maxEntries) done (.reclaimExpiredBudget removed) := by
    intro hsweep
    have hall := h [] 0 hsweep
    rw [List.append_nil] at hall
    exact ⟨removed, hall, rfl⟩
  cases indices with
  | nil => exact .inl ⟨rfl, hdone .nil⟩
  | cons i indices =>
    by_cases hzero : remaining = 0
    · subst hzero
      exact .inl ⟨rfl, hdone .spent⟩
    · have hadvance : advance hash s (.reclaimShards (i :: indices) remaining removed) = _ :=
        if_neg hzero
      refine .inr ⟨(i, .reclaimExpiredBudget remaining), ?_, ?_⟩
      · rw [hadvance]
        rfl
      · rw [hadvance]
        refine .sweep fun rest more hrest => ?_
        have hall := h _ _ (.cons (i := i) hzero hrest)
        rw [List.append_assoc, Nat.add_assoc]
        exact hall

/-- The first section of a call that names one key. -/
theorem runs_of_entryId (s : ShardedEngine n) {op : Op} {id : EntryId}
    (h : entryId? op = some id) : Runs hash s (ofOp op) op [] := by
  refine .inr ⟨(ShardedEngine.shardIndexFor hash id.ns id.key, op), ?_⟩
  have hreturns := @returns_of_entryId n _ hash op id h
    (execOnShard s.shards (ShardedEngine.shardIndexFor hash id.ns id.key, op)).1
  cases op with
  | put | completeLease | delete =>
    cases h
    exact ⟨rfl, continues_thenRoutes hreturns _ _⟩
  | get | getRef | getRefWithoutAccessUpdate | startLease =>
    cases h
    exact ⟨rfl, hreturns⟩
  | batchGet | invalidateTag | reclaimExpiredBudget => cases h

omit [NeZero n] in
/-- An invalidation visits each shard at most once. -/
theorem nodup_takeRoutes (s : ShardedEngine n) (o : IterOrder) (id : TagId) :
    (s.takeRoutes o id).1.Nodup ∧ (s.takeRoutes o id).2.shards = s.shards := by
  unfold ShardedEngine.takeRoutes
  split
  · exact ⟨List.nodup_nil, rfl⟩
  · next indices _ => exact ⟨o.nodup_order.mpr indices.keys_nodup, rfl⟩

/-- The first section of a call. -/
theorem runs_start (s : ShardedEngine n) (op : Op) : Runs hash s (ofOp op) op [] := by
  cases op with
  | put | completeLease | delete | get | getRef | getRefWithoutAccessUpdate | startLease =>
    exact runs_of_entryId s rfl
  | batchGet ns keys => exact runs_batchGet s ns keys []
  | invalidateTag o ns tag =>
    have hroutes := nodup_takeRoutes s o ⟨ns, tag⟩
    exact .inl ⟨hroutes.2, @continues_thenShards n _ hash o ns tag _ [] hroutes.1⟩
  | reclaimExpiredBudget maxEntries =>
    refine runs_reclaimShards s fun rest more hrest => ?_
    rw [Nat.zero_add]
    exact hrest

omit [NeZero n] in
theorem exists_sweep (indices : List (Fin n)) (budget : Nat) :
    ∃ effects removed, Sweep indices budget effects removed := by
  induction indices with
  | nil => exact ⟨[], 0, .nil⟩
  | cons i indices ih =>
    obtain ⟨effects, removed, hsweep⟩ := ih
    by_cases hzero : budget = 0
    · subst hzero
      exact ⟨[], 0, .spent⟩
    · exact ⟨_, _, .cons (k := 0) hzero hsweep⟩

/-- Whatever a call has done, it can go on to return. -/
theorem exists_returns {call : Call n} {op : Op} {done : List (ShardOp n × Outcome)}
    (h : Does hash call op done) : ∃ rest outcome, Returns hash op (done ++ rest) outcome := by
  have hbatch : ∀ (ns : String) (keys : List Bytes) (reads : List (Bytes × GetOutcome)),
      ∃ rest outcome, Returns (n := n) hash (.batchGet ns (reads.map Prod.fst ++ keys))
        (batchReads hash ns reads ++ rest) outcome := by
    intro ns keys reads
    refine ⟨batchReads hash ns (keys.map fun key => (key, .miss)), _,
      reads ++ keys.map fun key => (key, .miss), ?_, ?_, rfl⟩
    · simp [Function.comp_def]
    · rw [batchReads, batchReads, batchReads, List.map_append]
  cases h with
  | start op =>
    cases hid : entryId? op with
    | some id => exact ⟨_, .delete false, returns_of_entryId hid _⟩
    | none =>
      cases op with
      | batchGet ns keys => exact hbatch ns keys []
      | invalidateTag o ns tag => exact ⟨[], _, [], List.nodup_nil, rfl, rfl⟩
      | reclaimExpiredBudget maxEntries =>
        obtain ⟨effects, removed, hsweep⟩ := exists_sweep (List.finRange n) maxEntries
        exact ⟨effects, _, removed, hsweep, rfl⟩
      | _ => cases hid
  | routes hreturns => exact ⟨[], _, (List.append_nil done).symm ▸ hreturns⟩
  | shards hnodup =>
    rw [← List.append_nil (tagRemovals ..)]
    exact ⟨[], _, _, hnodup.of_append_left, by simp, rfl⟩
  | batch => exact hbatch ..
  | @sweep indices remaining removed maxEntries done hsweep =>
    obtain ⟨effects, more, hrest⟩ := exists_sweep indices remaining
    exact ⟨effects, _, _, hsweep effects more hrest, rfl⟩

theorem runs_of_does (s : ShardedEngine n) {call : Call n} {op : Op}
    {done : List (ShardOp n × Outcome)} (h : Does hash call op done) :
    Runs hash s call op done := by
  cases h with
  | start op => exact runs_start s op
  | routes hreturns => exact .inl ⟨ShardedEngine.updateTagRoutes_shards .., hreturns⟩
  | shards hnodup => exact runs_invalidateShards s _ _ _ hnodup
  | batch => exact runs_batchGet s _ _ _
  | sweep hsweep => exact runs_reclaimShards s hsweep

/-- The methods of the sharded engine consist of operations on its shards. -/
def implementation (hash : String → Bytes → Nat) :
    Atomic.Implementation (@ofOp n) (advance hash) execOnShard (@Returns n _ hash) where
  view := ShardedEngine.shards
  Does := Does hash
  start := .start
  completes := exists_returns
  advance := runs_of_does

/-- A log of operations on the shards that looks, from outside, like the interleaving `actions` of
calls from state `s`, and leads to the shards that it leads to. -/
structure Explains (hash : String → Bytes → Nat) (s : ShardedEngine n)
    (actions : List (Pool.Action Op)) (log : List (Atomic.Mark Op (ShardOp n) Outcome Outcome)) :
    Prop where
  atomic : ∃ threads, Atomic.Log execOnShard (Returns hash) s.shards log
    (Machine.run (Pool.step ofOp (advance hash)) ⟨s, ∅⟩ actions).shared.shards threads
  visible : log.filter Atomic.Mark.visible =
    Atomic.observed ofOp (advance hash) ⟨s, ∅⟩ actions

theorem exists_explains (hash : String → Bytes → Nat) (s : ShardedEngine n)
    (actions : List (Pool.Action Op)) : ∃ log, Explains hash s actions log := by
  obtain ⟨log, ⟨threads, hlog, -⟩, hvisible⟩ :=
    ((implementation hash).explains_start s).run actions
  exact ⟨log, ⟨threads, hlog⟩, hvisible⟩

end

/-! ## Each shard has a sequential run -/

/-- The operations on shard `i` among those on all shards. -/
def onShard? (i : Fin n) (x : ShardOp n × Outcome) : Option (Op × Outcome) :=
  if x.1.1 = i then some (x.1.2, x.2) else none

theorem onShard?_eq_some {i : Fin n} {x : ShardOp n × Outcome} {y : Op × Outcome} :
    onShard? i x = some y ↔ x = ((i, y.1), y.2) := by
  obtain ⟨⟨j, op⟩, outcome⟩ := x
  obtain ⟨op', outcome'⟩ := y
  unfold onShard?
  split
  · next hj =>
    cases hj
    simp
  · next hj => simpa using fun h => absurd h hj

theorem filterMap_onShard?_cons (i : Fin n) (op : Op) (outcome : Outcome)
    (xs : List (ShardOp n × Outcome)) :
    (((i, op), outcome) :: xs).filterMap (onShard? i) =
      (op, outcome) :: xs.filterMap (onShard? i) :=
  List.filterMap_cons_some (onShard?_eq_some.mpr rfl)

/-- The operations on a shard, in the order of all operations, are a run of its engine. -/
theorem run_on_shard (shards : Fin n → Engine) (i : Fin n) (atoms : List (ShardOp n)) :
    Machine.run execOnShard shards atoms i = (shards i).run
        (((Machine.trace execOnShard shards atoms).filterMap (onShard? i)).map Prod.fst) ∧
      Machine.trace Engine.exec (shards i)
        (((Machine.trace execOnShard shards atoms).filterMap (onShard? i)).map Prod.fst) =
          (Machine.trace execOnShard shards atoms).filterMap (onShard? i) := by
  induction atoms generalizing shards with
  | nil => exact ⟨rfl, rfl⟩
  | cons atom atoms ih =>
    obtain ⟨j, op⟩ := atom
    obtain ⟨hrun, htrace⟩ := ih (execOnShard shards (j, op)).2
    rw [Machine.trace_cons]
    by_cases hj : j = i
    · subst hj
      have hshard : (execOnShard shards (j, op)).2 j = ((shards j).exec op).2 :=
        Function.update_self ..
      rw [hshard] at hrun htrace
      rw [filterMap_onShard?_cons, List.map_cons, Machine.trace_cons]
      exact ⟨hrun, congrArg (_ :: ·) htrace⟩
    · have hshard : (execOnShard shards (j, op)).2 i = shards i :=
        Function.update_of_ne (Ne.symm hj) ..
      rw [hshard] at hrun htrace
      have helsewhere : onShard? i ((j, op), (execOnShard shards (j, op)).1) = none := if_neg hj
      rw [List.filterMap_cons_none helsewhere]
      exact ⟨hrun, htrace⟩

/-- An event of the engine of a shard is an operation in the log. -/
theorem exists_split_of_history {e : Engine} {i : Fin n} {older : List (ShardOp n × Outcome)}
    (htrace : Machine.trace Engine.exec e ((older.filterMap (onShard? i)).map Prod.fst) =
      older.filterMap (onShard? i)) {since before : List EngineEvent} {ev : EngineEvent}
    (hhistory : Machine.history Engine.exec e ((older.filterMap (onShard? i)).map Prod.fst) =
      since ++ ev :: before) :
    ∃ older' newer, older = older' ++ ((i, ev.action), ev.outcome) :: newer ∧
      ∀ op outcome, ((i, op), outcome) ∈ newer →
        ∃ ev' ∈ since, ev'.action = op ∧ ev'.outcome = outcome := by
  rw [Machine.trace, hhistory, List.map_append, List.map_cons, List.reverse_append,
    List.reverse_cons, List.append_assoc, List.singleton_append] at htrace
  obtain ⟨older₁, older₂, rfl, -, hrest⟩ := List.filterMap_eq_append_iff.mp htrace.symm
  obtain ⟨skipped, x, newer, rfl, -, hx, hnewer⟩ := List.filterMap_eq_cons_iff.mp hrest
  cases onShard?_eq_some.mp hx
  refine ⟨older₁ ++ skipped, newer, by simp, fun op outcome hmem => ?_⟩
  have hop : (op, outcome) ∈ newer.filterMap (onShard? i) :=
    List.mem_filterMap.mpr ⟨_, hmem, if_pos rfl⟩
  rw [hnewer, List.mem_reverse, List.mem_map] at hop
  obtain ⟨ev', hev', heq⟩ := hop
  exact ⟨ev', hev', congrArg Prod.fst heq, congrArg Prod.snd heq⟩

/-! ## Interleavings of calls -/

section
variable [NeZero n] {hash : String → Bytes → Nat}

/-- An operation that names one key is on the shard of its key. -/
def Routed (hash : String → Bytes → Nat) (x : ShardOp n × Outcome) : Prop :=
  ∀ id, entryId? x.1.2 = some id → x.1.1 = ShardedEngine.shardIndexFor hash id.ns id.key

theorem Sweep.routed {indices : List (Fin n)} {budget removed : Nat}
    {effects : List (ShardOp n × Outcome)} (h : Sweep indices budget effects removed) :
    ∀ x ∈ effects, Routed hash x := by
  induction h with
  | nil | spent => exact List.forall_mem_nil _
  | cons _ _ ih => exact List.forall_mem_cons.mpr ⟨fun id hid => (by cases hid), ih⟩

theorem Returns.routed {op : Op} {done : List (ShardOp n × Outcome)} {outcome : Outcome}
    (h : Returns hash op done outcome) : ∀ x ∈ done, Routed hash x := by
  cases op with
  | batchGet ns keys =>
    obtain ⟨reads, -, rfl, -⟩ := h
    intro x hx id hid
    obtain ⟨read, -, rfl⟩ := List.mem_map.mp hx
    cases hid
    rfl
  | invalidateTag o ns tag =>
    obtain ⟨removals, -, rfl, -⟩ := h
    intro x hx id hid
    obtain ⟨removal, -, rfl⟩ := List.mem_map.mp hx
    cases hid
  | reclaimExpiredBudget maxEntries =>
    obtain ⟨removed, hsweep, -⟩ := h
    exact hsweep.routed
  | _ =>
    obtain ⟨id, hid, rfl⟩ := h
    intro x hx id' hid'
    cases List.mem_singleton.mp hx
    cases hid.symm.trans hid'
    rfl

namespace Explains
variable {s : ShardedEngine n} {actions : List (Pool.Action Op)}
variable {log : List (Atomic.Mark Op (ShardOp n) Outcome Outcome)}

theorem routed (h : Explains hash s actions log) : ∀ x ∈ Atomic.effects log, Routed hash x := by
  obtain ⟨threads, hlog⟩ := h.atomic
  exact hlog.forall_effects fun _ _ _ hreturns => hreturns.routed

/-- All operations that name one key are on the same shard. -/
theorem shard_eq (h : Explains hash s actions log) {x y : ShardOp n × Outcome} {id : EntryId}
    (hx : x ∈ Atomic.effects log) (hy : y ∈ Atomic.effects log)
    (hidx : entryId? x.1.2 = some id) (hidy : entryId? y.1.2 = some id) : x.1.1 = y.1.1 :=
  (h.routed x hx id hidx).trans (h.routed y hy id hidy).symm

theorem sequential (h : Explains hash s actions log) (i : Fin n) :
    (Machine.run (Pool.step ofOp (advance hash)) ⟨s, ∅⟩ actions).shared.shards i =
        (s.shards i).run (((Atomic.effects log).filterMap (onShard? i)).map Prod.fst) ∧
      Machine.trace Engine.exec (s.shards i)
        (((Atomic.effects log).filterMap (onShard? i)).map Prod.fst) =
          (Atomic.effects log).filterMap (onShard? i) := by
  obtain ⟨threads, hlog⟩ := h.atomic
  obtain ⟨hrun, htrace⟩ := hlog.run_effects
  have hshard := run_on_shard s.shards i ((Atomic.effects log).map Prod.fst)
  rw [hrun, htrace] at hshard
  exact hshard

/-- An operation in the log is an event of the engine of its shard, after the operations on that
shard that precede it. -/
theorem event_of_split (h : Explains hash s actions log) {i : Fin n} {op : Op} {outcome : Outcome}
    {older newer : List (ShardOp n × Outcome)}
    (hsplit : Atomic.effects log = older ++ ((i, op), outcome) :: newer) :
    Machine.trace Engine.exec (s.shards i) ((older.filterMap (onShard? i)).map Prod.fst) =
        older.filterMap (onShard? i) ∧
      (((s.shards i).run ((older.filterMap (onShard? i)).map Prod.fst)).exec op).1 = outcome := by
  have htrace := (h.sequential i).2
  rw [hsplit, List.filterMap_append, filterMap_onShard?_cons] at htrace
  exact Machine.trace_split _ htrace

end Explains

/-- **Concurrent calls are atomic shard by shard.** Whatever any number of threads call, and however
the sections of their calls interleave, the calls and their results are those of a log in which a
call of one key is a single operation on the shard of that key, a batch is one read for each key, an
invalidation one operation on each of distinct shards, and a reclaim one sweep over the shards; each
shard is left in the state to which the operations on it lead, one after another. -/
theorem concurrent_calls_linearize (hash : String → Bytes → Nat) (s : ShardedEngine n)
    (actions : List (Pool.Action Op)) :
    ∃ log, Explains hash s actions log ∧ (∀ x ∈ Atomic.effects log, Routed hash x) ∧
      ∀ i, (Machine.run (Pool.step ofOp (advance hash)) ⟨s, ∅⟩ actions).shared.shards i =
          (s.shards i).run (((Atomic.effects log).filterMap (onShard? i)).map Prod.fst) ∧
        Machine.trace Engine.exec (s.shards i)
          (((Atomic.effects log).filterMap (onShard? i)).map Prod.fst) =
            (Atomic.effects log).filterMap (onShard? i) := by
  obtain ⟨log, h⟩ := exists_explains hash s actions
  exact ⟨log, h, h.routed, h.sequential⟩

end

/-- Two puts of one key whose sections alternate, and a read of the key. -/
def racingPuts : List (Pool.Action Op) :=
  [.call 0 (.put .asStored (ShardedEngine.taggedPut [1])),
    .call 1 (.put .asStored (ShardedEngine.taggedPut [1])), .advance 1, .advance 0, .advance 0,
    .advance 1, .call 2 (.get "app" [1]), .advance 2]

theorem concurrent_calls_linearize_racingPuts :
    ∃ log, Explains (n := 2) (fun _ _ => 1)
        (.withClockAndLimits (fun _ => ⟨fun _ => 5, 0⟩) default) racingPuts log ∧
      ∀ x ∈ Atomic.effects log, Routed (fun _ _ => 1) x := by
  obtain ⟨log, hexplains, hrouted, -⟩ := concurrent_calls_linearize (n := 2) (fun _ _ => 1)
    (.withClockAndLimits (fun _ => ⟨fun _ => 5, 0⟩) default) racingPuts
  exact ⟨log, hexplains, hrouted⟩

end Call
end Cachebox
