import Cachebox.Engine.Balance
import Cachebox.Sharded.Limits

/-!
# Routes that lead nowhere

A write and a deletion drop the routes of the tags of the entry that they find. Nothing else does,
except that `invalidate_tag` drops the routes of its own tag. So a route is backed by an entry with
the tag as long as every entry with tags leaves the engine by a write or a deletion of its key
(`Tidy`). An entry that is reclaimed, evicted, found expired by a read, or invalidated by one of
several tags leaves its routes behind, and no later write or deletion of the key finds them.
-/

namespace Cachebox
namespace Engine

variable {e e' : Engine} {id : EntryId} {tagId : TagId}

/-- Some entry has the tag. -/
def Tagged (e : Engine) (tagId : TagId) : Prop := ∃ id, e.Carries id tagId

/-- Each tag of a lost entry is also a tag of an entry that is not lost. -/
def KeepsTags (e : Engine) (Lost : EntryId → Prop) : Prop :=
  ∀ id tagId, Lost id → e.Carries id tagId → ∃ id', ¬ Lost id' ∧ e.Carries id' tagId

theorem KeepsTags.tagged {Lost : EntryId → Prop} (h : e.KeepsTags Lost)
    (hkept : ∀ id, ¬ Lost id → e'.record id = e.record id) (htag : e.Tagged tagId) :
    e'.Tagged tagId := by
  have hcarries : ∀ id, ¬ Lost id → e.Carries id tagId → e'.Tagged tagId := by
    intro id hid hc
    rw [carries_iff_record, ← hkept id hid, ← carries_iff_record] at hc
    exact ⟨id, hc⟩
  obtain ⟨id, hc⟩ := htag
  by_cases hid : Lost id
  · obtain ⟨id', hid', hc'⟩ := h id tagId hid hc
    exact hcarries id' hid' hc'
  · exact hcarries id hid hc

/-! ## What the reads and the cleanup lose -/

/-- The entries that are expired at their readings, when the keys are read one after the other. -/
def ExpiredIn (e : Engine) (ns : String) : Clock → List Bytes → EntryId → Prop
  | _, [], _ => False
  | clock, key :: keys, id =>
    (id = ⟨ns, key⟩ ∧ e.ExpiredAt id clock.nowMs) ∨ e.ExpiredIn ns clock.tick keys id

/-- The entry is removable at the next reading. -/
def DueNow (e : Engine) (id : EntryId) : Prop :=
  ∃ entry, e.entries.lookup id = some entry ∧ Removable e.clock.nowMs id entry

/-- The put is refused for its size, or finds room for its entry beside the others. -/
def HasRoom (e : Engine) (command : PutCommand) : Prop :=
  estimateEntryMemory command.id command.value command.tags ≤ e.limits.maxMemoryBytes →
    e.chargedWith command ≤ e.limits.maxMemoryBytes

instance (e : Engine) (command : PutCommand) : Decidable (e.HasRoom command) :=
  inferInstanceAs (Decidable (_ → _))

theorem record_getRefInner {R : Type} {ns : String} {key : Bytes} (updateAccess : Bool)
    (map : GetOutcomeRef → R) (h : ¬ (id = ⟨ns, key⟩ ∧ e.ExpiredAt id e.clock.nowMs)) :
    (e.getRefInner ns key updateAccess map).2.record id = e.record id := by
  by_cases hid : id = ⟨ns, key⟩
  · subst hid
    exact record_getRefInner_of_not_expired updateAccess map (fun hexpired => h ⟨rfl, hexpired⟩) _
  · exact record_congr ((does_getRefInner_only ns key updateAccess map e).frame.entries id hid)

theorem expiredIn_congr (h : e'.record id = e.record id) (ns : String) (clock : Clock)
    (keys : List Bytes) : e'.ExpiredIn ns clock keys id ↔ e.ExpiredIn ns clock keys id := by
  induction keys generalizing clock with
  | nil => rfl
  | cons key keys ih =>
    exact or_congr (and_congr_right fun _ => expiredAt_congr h _) (ih clock.tick)

theorem record_batchGet {ns : String} {keys : List Bytes} (h : ¬ e.ExpiredIn ns e.clock keys id) :
    (e.batchGet ns keys).2.record id = e.record id := by
  induction keys generalizing e with
  | nil => rfl
  | cons key keys ih =>
    rw [ExpiredIn, not_or] at h
    have hget : (e.get ns key).2.record id = e.record id := record_getRefInner true _ h.1
    have hrest : ¬ (e.get ns key).2.ExpiredIn ns (e.get ns key).2.clock keys id := by
      rw [get_clock, expiredIn_congr hget]
      exact h.2
    exact (ih hrest).trans hget

theorem record_startLease {ns : String} {key : Bytes} (leaseTtlMs : UInt64)
    (h : ¬ (id = ⟨ns, key⟩ ∧ e.ExpiredAt id (e.activeLease ⟨ns, key⟩).2.clock.nowMs)) :
    (e.startLease ns key leaseTtlMs).2.record id = e.record id := by
  by_cases hid : id = ⟨ns, key⟩
  · subst hid
    have hactive : (e.activeLease ⟨ns, key⟩).2.record ⟨ns, key⟩ = e.record ⟨ns, key⟩ :=
      record_congr (by rw [activeLease_entries])
    have haccess := (record_recordAccess (e.activeLease ⟨ns, key⟩).2.tick ⟨ns, key⟩
      ⟨ns, key⟩).trans hactive
    cases hl : e.entries.lookup ⟨ns, key⟩ with
    | none =>
      rw [startLease_of_missing hl]
      exact record_congr (by rw [startLeaseForMissing_entries, activeLease_entries])
    | some entry =>
      rw [expiredAt_of_lookup hl] at h
      cases hstate : entryStateAt entry (e.activeLease ⟨ns, key⟩).2.clock.nowMs with
      | missing => exact absurd hstate (entryStateAt_ne_missing _ _)
      | expired => exact absurd ⟨rfl, hstate⟩ h
      | fresh =>
        rw [startLease_of_fresh hl hstate]
        exact haccess
      | stale =>
        rw [startLease_of_stale hl hstate]
        dsimp only
        split
        · exact haccess
        · exact haccess
  · exact record_congr ((does_startLease_only ns key leaseTtlMs e).frame.entries id hid)

theorem record_removeExpired (H : e.Inv) (maxEntries : Nat) (h : ¬ e.DueNow id) :
    (e.removeExpired maxEntries).2.record id = e.record id := by
  rcases lookup_removeExpired H.indexed maxEntries id with hkept | ⟨-, t, ⟨entry, hl, ht⟩, hle⟩
  · exact record_congr hkept
  · exact absurd ⟨entry, hl, t, ht, hle⟩ h

/-! ## What a section on a shard does to the routes -/

/-- After the section, the routes it adds lead to entries, and so do those it leaves. -/
structure BacksRoutes (e e' : Engine) (routes : RouteUpdate) : Prop where
  added : ∀ tagId ∈ routes.addTags, e'.Tagged tagId
  kept : ∀ tagId, e.Tagged tagId → tagId ∉ routes.removeTags → e'.Tagged tagId

/-- A tag of the key that still has an entry is not among the old tags without entries. -/
theorem tagged_of_kept (H : e'.Inv) {ns : String} {key : Bytes}
    (hothers : ∀ id, id ≠ ⟨ns, key⟩ → e'.entries.lookup id = e.entries.lookup id)
    (htag : e.Tagged tagId)
    (hkept : tagId ∉ (e.tagIdsForEntry ns key).filter fun tagId => !e'.hasTagId tagId) :
    e'.Tagged tagId := by
  obtain ⟨id, hc⟩ := htag
  by_cases hid : id = ⟨ns, key⟩
  · subst hid
    have hmem : tagId ∈ e.tagIdsForEntry ns key := mem_tagIdsForEntry.mpr hc
    refine (hasTagId_iff H).mp ?_
    simpa [List.mem_filter, hmem] using hkept
  · obtain ⟨entry, hl, hrest⟩ := hc
    exact ⟨id, entry, (hothers id hid).trans hl, hrest⟩

/-- A write that changes only its own key, and stores its tags there if it succeeds. -/
theorem backsRoutes_write {ε : Type} {ns : String} {key : Bytes} {tags : List String}
    {write : Engine → Except ε PutOutcome × Engine} (H : (write e).2.Inv)
    (hothers : ∀ id, id ≠ ⟨ns, key⟩ → (write e).2.entries.lookup id = e.entries.lookup id)
    (hstored : (write e).1.isOk → ∃ r, (write e).2.record ⟨ns, key⟩ = some r ∧ r.tags = tags) :
    BacksRoutes e (writeSection ns key tags write e).2 (writeSection ns key tags write e).1.2 := by
  refine ⟨fun tagId hmem => ?_, fun tagId htag hkept => tagged_of_kept H hothers htag hkept⟩
  simp only [writeSection] at hmem
  split at hmem
  · next hok =>
    obtain ⟨r, hr, rfl⟩ := hstored hok
    obtain ⟨hns, htag⟩ := mem_tagIds.mp hmem
    exact ⟨⟨ns, key⟩, carries_iff_record.mpr ⟨r, hr, hns.symm, htag⟩⟩
  · cases hmem

theorem backsRoutes_put (H : e.Inv) (o : IterOrder) (command : PutCommand)
    (hroom : e.HasRoom command) :
    BacksRoutes e (putSection o command e).2 (putSection o command e).1.2 := by
  refine backsRoutes_write (H.put o command)
    (does_put_of_room H o command fun _ => hroom).frame.entries fun hok => ?_
  cases hresult : (e.put o command).1 with
  | error => simp [hresult, Except.isOk, Except.toBool] at hok
  | ok outcome => exact ⟨_, (record_put_ok H hresult).1, rfl⟩

theorem backsRoutes_completeLease (H : e.Inv) (o : IterOrder) (command : CompleteLeaseCommand)
    (hroom : e.HasRoom command.toPut) :
    BacksRoutes e (completeLeaseSection o command e).2 (completeLeaseSection o command e).1.2 := by
  refine backsRoutes_write (H.completeLease o command)
    (does_completeLease_of_room H o command fun _ _ _ _ _ => hroom).frame.entries fun hok => ?_
  cases hresult : (e.completeLease o command).1 with
  | error => simp [hresult, Except.isOk, Except.toBool] at hok
  | ok outcome =>
    have hput := completeLease_ok hresult
    have hrecord := (record_put_ok (H.tick.dropLease command.id) (congrArg Prod.fst hput)).1
    rw [hput] at hrecord
    exact ⟨_, hrecord, rfl⟩

theorem backsRoutes_delete (H : e.Inv) (ns : String) (key : Bytes) :
    BacksRoutes e (deleteSection ns key e).2 (deleteSection ns key e).1.2 := by
  have hothers := (does_delete_only ns key e).frame.entries
  refine ⟨nofun, fun tagId htag hkept => ?_⟩
  simp only [deleteSection] at hkept ⊢
  split at hkept
  · exact tagged_of_kept (H.delete ns key) hothers htag hkept
  · next hremoved =>
    have hnone : e.entries.lookup ⟨ns, key⟩ = none := by
      simpa [delete, dropLease] using hremoved
    obtain ⟨id, entry, hl, hrest⟩ := htag
    have hid : id ≠ ⟨ns, key⟩ := by
      rintro rfl
      cases hnone.symm.trans hl
    exact ⟨id, entry, (hothers id hid).trans hl, hrest⟩

end Engine

namespace ShardedEngine

variable {n : Nat} {s s' : ShardedEngine n} {i : Fin n}

/-- Every route leads to a shard with an entry that has the tag. -/
def Backed (s : ShardedEngine n) : Prop :=
  ∀ i tagId, s.tagDirectory.Holds tagId i → (s.shards i).Tagged tagId

theorem backed_withClockAndLimits (clocks : Fin n → Clock) (limits : EngineLimits) :
    (withClockAndLimits clocks limits).Backed :=
  fun _ _ h => absurd h MultiMap.holds_empty

/-- Without a change of the routes it is enough that no tag gets lost. -/
theorem Backed.of_tagged (h : s.Backed) (hroutes : s'.tagDirectory = s.tagDirectory)
    (htags : ∀ i tagId, (s.shards i).Tagged tagId → (s'.shards i).Tagged tagId) : s'.Backed := by
  intro i tagId hroute
  rw [hroutes] at hroute
  exact htags i tagId (h i tagId hroute)

theorem Backed.section {α : Type} (h : s.Backed) {body : Engine → α × Engine}
    {routes : RouteUpdate}
    (hroutes : Engine.BacksRoutes (s.shards i) (body (s.shards i)).2 routes) :
    ((s.onShard i body).2.updateTagRoutes i routes).Backed := by
  intro j tagId hroute
  rw [holds_updateTagRoutes] at hroute
  rw [updateTagRoutes_shards]
  by_cases hj : j = i
  · subst hj
    rw [onShard_shards_self]
    rcases hroute with ⟨hadd, -⟩ | ⟨hold, hkept⟩
    · exact hroutes.added tagId hadd
    · exact hroutes.kept tagId (h j tagId hold) fun hremove => hkept ⟨hremove, rfl⟩
  · rw [onShard_shards_of_ne hj]
    rcases hroute with ⟨-, heq⟩ | ⟨hold, -⟩
    · exact absurd heq hj
    · exact h j tagId hold

/-- The operation finds room for what it writes, and every other entry that it may lose leaves no
tag without an entry in its shard. An invalidation drops the routes of its own tag. -/
def Tidy [NeZero n] (hash : String → Bytes → Nat) (s : ShardedEngine n) : Op → Prop
  | .put _ command => (s.shards (shardIndexFor hash command.ns command.key)).HasRoom command
  | .completeLease _ command =>
    (s.shards (shardIndexFor hash command.ns command.key)).HasRoom command.toPut
  | .delete _ _ => True
  | .get ns key | .getRef ns key | .getRefWithoutAccessUpdate ns key =>
    let shard := s.shards (shardIndexFor hash ns key)
    shard.KeepsTags fun id => id = ⟨ns, key⟩ ∧ shard.ExpiredAt id shard.clock.nowMs
  | .batchGet ns keys => ∀ i, (s.shards i).KeepsTags
      ((s.shards i).ExpiredIn ns (s.shards i).clock
        (keys.filter fun key => shardIndexFor hash ns key = i))
  | .startLease ns key _ =>
    let shard := s.shards (shardIndexFor hash ns key)
    shard.KeepsTags fun id =>
      id = ⟨ns, key⟩ ∧ shard.ExpiredAt id (shard.activeLease ⟨ns, key⟩).2.clock.nowMs
  | .invalidateTag _ ns tag => ∀ i id tagId, tagId ≠ ⟨ns, tag⟩ →
    (s.shards i).Carries id ⟨ns, tag⟩ → (s.shards i).Carries id tagId →
      ∃ id', ¬ (s.shards i).Carries id' ⟨ns, tag⟩ ∧ (s.shards i).Carries id' tagId
  | .reclaimExpiredBudget maxEntries =>
    maxEntries = 0 ∨ ∀ i, (s.shards i).KeepsTags (s.shards i).DueNow

/-- A section on one shard that changes no routes and loses no tag. -/
theorem Backed.onShard {α : Type} (h : s.Backed) {body : Engine → α × Engine}
    {Lost : EntryId → Prop} (htidy : (s.shards i).KeepsTags Lost)
    (hkept : ∀ id, ¬ Lost id → (body (s.shards i)).2.record id = (s.shards i).record id) :
    (s.onShard i body).2.Backed := by
  refine h.of_tagged rfl fun j tagId htag => ?_
  by_cases hj : j = i
  · subst hj
    rw [onShard_shards_self]
    exact htidy.tagged hkept htag
  · rwa [onShard_shards_of_ne hj]

theorem Backed.reclaimExpiredBudget (H : s.Inv) (h : s.Backed)
    (htidy : ∀ i, (s.shards i).KeepsTags (s.shards i).DueNow) (maxEntries : Nat) :
    (s.reclaimExpiredBudget maxEntries).2.Backed := by
  refine h.of_tagged (reclaimShards_tagDirectory _ _ s) fun i tagId htag => ?_
  rcases reclaimShards_shards (List.nodup_finRange n) maxEntries s i with heq | ⟨k, heq⟩
  · rw [ShardedEngine.reclaimExpiredBudget, heq]
    exact htag
  · rw [ShardedEngine.reclaimExpiredBudget, heq]
    exact (htidy i).tagged (fun id hid => Engine.record_removeExpired (H.shards i) k hid) htag

theorem Backed.invalidateTag (H : s.Inv) (h : s.Backed) (o : IterOrder) {ns tag : String}
    (htidy : ∀ i id tagId, tagId ≠ ⟨ns, tag⟩ → (s.shards i).Carries id ⟨ns, tag⟩ →
      (s.shards i).Carries id tagId →
        ∃ id', ¬ (s.shards i).Carries id' ⟨ns, tag⟩ ∧ (s.shards i).Carries id' tagId) :
    (s.invalidateTag o ns tag).2.Backed := by
  obtain ⟨indices, -, -, heq⟩ := invalidateTag_spec s o ns tag
  intro i tagId hroute
  have hshard := (invalidateTag_correct H o ns tag).2 i
  rw [heq, MultiMap.holds_erase] at hroute
  have hkept : ∀ id, ¬ (s.shards i).Carries id ⟨ns, tag⟩ → (s.shards i).Carries id tagId →
      ((s.invalidateTag o ns tag).2.shards i).Tagged tagId := by
    rintro id hid ⟨entry, hl, hrest⟩
    exact ⟨id, entry, ((hshard id).2 hid).trans hl, hrest⟩
  obtain ⟨id, hc⟩ := h i tagId hroute.1
  by_cases hid : (s.shards i).Carries id ⟨ns, tag⟩
  · obtain ⟨id', hid', hc'⟩ := htidy i id tagId hroute.2 hid hc
    exact hkept id' hid' hc'
  · exact hkept id hid hc

section
variable [NeZero n] {hash : String → Bytes → Nat}

theorem Backed.exec (H : s.Inv) (h : s.Backed) {op : Op} (htidy : s.Tidy hash op) :
    (s.exec hash op).2.Backed := by
  cases op with
  | put o command => exact h.section (Engine.backsRoutes_put (H.shards _) o command htidy)
  | completeLease o command =>
    exact h.section (Engine.backsRoutes_completeLease (H.shards _) o command htidy)
  | delete ns key => exact h.section (Engine.backsRoutes_delete (H.shards _) ns key)
  | get ns key =>
    show (s.get hash ns key).2.Backed
    exact h.onShard htidy fun id hid => Engine.record_getRefInner true _ hid
  | getRef ns key =>
    show (s.getRef hash ns key id).2.Backed
    exact h.onShard htidy fun id hid => Engine.record_getRefInner true _ hid
  | getRefWithoutAccessUpdate ns key =>
    show (s.getRefWithoutAccessUpdate hash ns key id).2.Backed
    exact h.onShard htidy fun id hid => Engine.record_getRefInner false _ hid
  | batchGet ns keys =>
    refine h.of_tagged (batchGet_tagDirectory hash ns keys s) fun i tagId htag => ?_
    show ((batchGet hash ns keys s).2.shards i).Tagged tagId
    rw [batchGet_shards]
    exact (htidy i).tagged (fun id hid => Engine.record_batchGet hid) htag
  | startLease ns key leaseTtlMs =>
    show (s.startLease hash ns key leaseTtlMs).2.Backed
    exact h.onShard htidy fun id hid => Engine.record_startLease leaseTtlMs hid
  | invalidateTag o ns tag => exact h.invalidateTag H o htidy
  | reclaimExpiredBudget maxEntries =>
    rcases htidy with rfl | htidy
    · show (reclaimShards (List.finRange n) 0 s).2.Backed
      rw [reclaimShards_zero]
      exact h
    · exact h.reclaimExpiredBudget H htidy maxEntries

theorem backed_run {clocks : Fin n → Clock} {limits : EngineLimits} {ops : List Op}
    (htidy : ∀ ev ∈ Machine.history (exec hash) (withClockAndLimits clocks limits) ops,
      ev.before.Tidy hash ev.action) :
    ((withClockAndLimits clocks limits).run hash ops).Backed :=
  (Machine.run_invariant_allowed (I := fun s : ShardedEngine n => s.Inv ∧ s.Backed)
    (fun _ op htidy h => ⟨h.1.exec hash op, h.2.exec h.1 htidy⟩)
    ⟨inv_withClockAndLimits clocks limits, backed_withClockAndLimits clocks limits⟩ htidy).2

end

/-! ## Routes after a write or a deletion -/

end ShardedEngine

/-- One step of a run of the sharded engine. -/
abbrev ShardedEvent (n : Nat) := Machine.Event (ShardedEngine n) Op Outcome

namespace ShardedEvent

variable {n : Nat}

/-- The entry an event stores, with its tags. -/
def stored (ev : ShardedEvent n) : Option (EntryId × List String) :=
  match ev.action, ev.outcome with
  | .put _ command, .put (.ok _) => some (command.id, command.tags)
  | .completeLease _ command, .completeLease (.ok _) => some (command.id, command.tags)
  | _, _ => none

/-- The event stores an entry for `id`, or deletes it. -/
def Rewrites (ev : ShardedEvent n) (id : EntryId) : Prop :=
  (∃ tags, ev.stored = some (id, tags)) ∨ ev.action = .delete id.ns id.key

end ShardedEvent

namespace ShardedEngine

variable {n : Nat} [NeZero n] (hash : String → Bytes → Nat)

/-- After every deletion and every accepted write of a key, a route of a tag that the key ever had
leads from its shard to an entry with the tag. -/
def RoutesCleaned (history : List (ShardedEvent n)) : Prop :=
  ∀ newer (ev : ShardedEvent n) older, history = newer ++ ev :: older →
    ∀ id tag, ev.Rewrites id →
      (∃ ev' ∈ ev :: older, ∃ tags, ShardedEvent.stored ev' = some (id, tags) ∧ tag ∈ tags) →
      let i := shardIndexFor hash id.ns id.key
      ev.after.tagDirectory.Holds ⟨id.ns, tag⟩ i → (ev.after.shards i).Tagged ⟨id.ns, tag⟩

/-- **Routes are cleaned up as long as no entry with tags gets lost.** If in each step of a run
writes find room and no tag loses its last entry in a shard by expiry, cleanup or the invalidation
of another tag, then every route is backed by an entry, in particular after every deletion and every
write. -/
theorem routesCleaned_of_tidy (clocks : Fin n → Clock) (limits : EngineLimits) (ops : List Op) :
    let s₀ := withClockAndLimits clocks limits
    let history := Machine.history (exec hash) s₀ ops
    (∀ ev ∈ history, ev.before.Tidy hash ev.action) →
      RoutesCleaned hash history ∧ (s₀.run hash ops).Backed := by
  intro s₀ history htidy
  refine ⟨fun newer ev older hsplit id tag _ _ => ?_, backed_run htidy⟩
  obtain ⟨pre, op, -, -, rfl, rfl⟩ := Machine.history_split _ hsplit
  have hbacked : (s₀.run hash (pre ++ [op])).Backed := by
    refine backed_run fun ev hev => htidy ev ?_
    rw [Machine.history_concat] at hev
    rw [hsplit]
    exact List.mem_append_right _ hev
  rw [run, Machine.run_concat] at hbacked
  exact hbacked _ _

omit [NeZero n]

/-- A put under the key `[1]` with one tag. -/
def putTagged (ttl : Option Ttl) (tag : String) : PutCommand :=
  { ns := "app", key := [1], value := [], ttl := ttl, staleTtl := none, tags := [tag]
    cost := none }

/-- A put that replaces an entry with another tag drops the route of the old tag. -/
theorem routesCleaned_of_tidy_replaced :
    let s := (withClockAndLimits (n := 2) (fun _ => ⟨fun _ => 5, 0⟩) default).run firstByte
      [.put .asStored (putTagged none "red"), .put .asStored (putTagged none "blue")]
    s.Backed ∧ ¬ s.tagDirectory.Holds ⟨"app", "red"⟩ 1 := by
  refine ⟨(routesCleaned_of_tidy (n := 2) firstByte (fun _ => ⟨fun _ => 5, 0⟩) default
    [.put .asStored (putTagged none "red"), .put .asStored (putTagged none "blue")] ?_).2,
    by decide +kernel⟩
  refine List.forall_mem_cons.mpr ⟨?_, List.forall_mem_singleton.mpr ?_⟩
  · exact fun _ => by decide +kernel
  · exact fun _ => by decide +kernel

/-- An entry with the tag `red` is reclaimed. The next put of its key leaves the route of `red`
behind, although no entry has the tag. -/
theorem not_routesCleaned_after_reclaim :
    ¬ RoutesCleaned firstByte
      (Machine.history (exec firstByte)
        (withClockAndLimits (n := 2) (fun _ => ⟨fun _ => 5, 0⟩) default)
        [.put .asStored (putTagged (some ⟨0⟩) "red"), .reclaimExpiredBudget 1,
          .put .asStored (putTagged none "blue")]) := by
  intro hcleaned
  let s₀ := withClockAndLimits (n := 2) (fun _ => ⟨fun _ => 5, 0⟩) default
  let ops : List Op := [.put .asStored (putTagged (some ⟨0⟩) "red"), .reclaimExpiredBudget 1]
  let ev : ShardedEvent 2 :=
    Machine.event (exec firstByte) (s₀.run firstByte ops) (.put .asStored (putTagged none "blue"))
  have hstored : ev.stored = some (⟨"app", [1]⟩, ["blue"]) := by decide +kernel
  have hcarried : ShardedEvent.stored (Machine.event (exec firstByte) s₀
      (.put .asStored (putTagged (some ⟨0⟩) "red"))) = some (⟨"app", [1]⟩, ["red"]) := by
    decide +kernel
  have hroute : ev.after.tagDirectory.Holds ⟨"app", "red"⟩ 1 := by decide +kernel
  have hnone : (ev.after.shards 1).hasTagId ⟨"app", "red"⟩ = false := by decide +kernel
  have hinv : ev.after.Inv :=
    (inv_run (n := 2) firstByte (fun _ => ⟨fun _ => 5, 0⟩) default ops).exec firstByte _
  have htagged : (ev.after.shards 1).Tagged ⟨"app", "red"⟩ :=
    hcleaned [] ev (Machine.history (exec firstByte) s₀ ops) rfl ⟨"app", [1]⟩ "red"
      (.inl ⟨["blue"], hstored⟩)
      ⟨_, List.mem_cons_of_mem _ (List.mem_cons_of_mem _ List.mem_cons_self), ["red"], hcarried,
        List.mem_cons_self⟩ hroute
  rw [(Engine.hasTagId_iff (hinv.shards 1)).mpr htagged] at hnone
  cases hnone

end ShardedEngine
end Cachebox
