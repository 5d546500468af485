import Mathlib.Algebra.BigOperators.Fin
import Cachebox.Engine.Tags
import Cachebox.Sharded.Basic

/-!
# The tag directory of the sharded engine

The directory may route a tag to a shard that no longer holds an entry with it, but it never misses
one that does (`Routed`): a write adds the routes of its own tags after it has removed those that
its shard no longer needs, and an entry that appears in a shard is the one the write stored. Hence
`invalidate_tag` visits every shard it has to visit.
-/

namespace Cachebox
namespace Engine

variable {e : Engine} {id : EntryId} {tagId : TagId}

/-- What a section on a shard and the routes it asks for have to do with each other. -/
structure SectionOk (e e' : Engine) (routes : RouteUpdate) : Prop where
  inv : e'.Inv
  later : e.Later e'
  /-- A tag that an entry has got in the section is among those to add. -/
  carries : ∀ id tagId, e'.Carries id tagId → e.Carries id tagId ∨ tagId ∈ routes.addTags
  /-- No entry has a tag that is to be removed. -/
  removed : ∀ tagId ∈ routes.removeTags, ∀ id, ¬ e'.Carries id tagId

/-- An operation that writes nothing asks for no routes. -/
theorem sectionOk_exec (H : e.Inv) (op : Op)
    (hwritten : EngineEvent.written (Machine.event exec e op) = none) :
    SectionOk e (e.exec op).2 ⟨[], []⟩ := by
  refine ⟨H.exec op, later_exec e op, fun id tagId h => ?_, nofun⟩
  rcases carries_exec H op h with hc | ⟨r, hw, -⟩
  · exact .inl hc
  · rw [hwritten] at hw
    cases hw

/-- The old tags without entries are tags that no entry has. -/
theorem not_carries_of_mem_filter (H : e.Inv) {oldTags : List TagId}
    (h : tagId ∈ oldTags.filter fun tagId => !e.hasTagId tagId) (id : EntryId) :
    ¬ e.Carries id tagId := by
  intro hc
  have htag := (hasTagId_iff H).mpr ⟨id, hc⟩
  simp [List.mem_filter, htag] at h

/-- The section of an operation whose own tags are those of the record it writes. -/
theorem sectionOk_write {ε : Type} (H : e.Inv) (op : Op) {ns : String} {key : Bytes}
    {tags : List String} {write : Engine → Except ε PutOutcome × Engine}
    (hexec : (e.exec op).2 = (write e).2)
    (hwritten : ∀ id r, EngineEvent.written (Machine.event exec e op) = some (id, r) →
      (write e).1.isOk ∧ id.ns = ns ∧ r.tags = tags) :
    SectionOk e (writeSection ns key tags write e).2 (writeSection ns key tags write e).1.2 := by
  have hinv := H.exec op
  have hlater := later_exec e op
  have hcarries := fun id tagId => @carries_exec e id tagId H op
  rw [hexec] at hinv hlater hcarries
  refine ⟨hinv, hlater, fun id tagId h => ?_, fun tagId h => not_carries_of_mem_filter hinv h⟩
  refine (hcarries id tagId h).imp_right fun ⟨r, hw, hns, htag⟩ => ?_
  obtain ⟨hok, rfl, rfl⟩ := hwritten id r hw
  simp only [writeSection, hok, if_true]
  exact mem_tagIds.mpr ⟨hns.symm, htag⟩

theorem sectionOk_put (H : e.Inv) (o : IterOrder) (command : PutCommand) :
    SectionOk e (putSection o command e).2 (putSection o command e).1.2 := by
  refine sectionOk_write H (.put o command) rfl fun id r hw => ?_
  cases hout : (e.put o command).1 with
  | error => simp [EngineEvent.written, Machine.event, exec, hout] at hw
  | ok =>
    simp only [EngineEvent.written, Machine.event, exec, Prod.map_fst, hout, Option.some.injEq,
      Prod.mk.injEq] at hw
    obtain ⟨rfl, rfl⟩ := hw
    exact ⟨rfl, rfl, rfl⟩

theorem sectionOk_completeLease (H : e.Inv) (o : IterOrder) (command : CompleteLeaseCommand) :
    SectionOk e (completeLeaseSection o command e).2 (completeLeaseSection o command e).1.2 := by
  refine sectionOk_write H (.completeLease o command) rfl fun id r hw => ?_
  cases hout : (e.completeLease o command).1 with
  | error => simp [EngineEvent.written, Machine.event, exec, hout] at hw
  | ok =>
    simp only [EngineEvent.written, Machine.event, exec, Prod.map_fst, hout, Option.some.injEq,
      Prod.mk.injEq] at hw
    obtain ⟨rfl, rfl⟩ := hw
    exact ⟨rfl, rfl, rfl⟩

theorem sectionOk_delete (H : e.Inv) (ns : String) (key : Bytes) :
    SectionOk e (deleteSection ns key e).2 (deleteSection ns key e).1.2 := by
  have hok := sectionOk_exec H (.delete ns key) rfl
  refine ⟨hok.inv, hok.later, fun id tagId h => (hok.carries id tagId h).imp_right nofun,
    fun tagId h => ?_⟩
  simp only [deleteSection] at h
  split at h
  · exact not_carries_of_mem_filter hok.inv h
  · cases h

end Engine

namespace ShardedEngine

variable {n : Nat} {s : ShardedEngine n} {i j : Fin n} {tagId : TagId}

/-- The directory lists every shard that holds an entry with a tag. -/
def Routed (s : ShardedEngine n) : Prop :=
  ∀ i id tagId, (s.shards i).Carries id tagId → s.tagDirectory.Holds tagId i

/-- The invariant of the sharded engine between two operations. -/
structure Inv (s : ShardedEngine n) : Prop where
  shards : ∀ i, (s.shards i).Inv
  limits : ∀ i, (s.shards i).limits = s.limits.forShard n
  routed : s.Routed

theorem inv_withClockAndLimits (clocks : Fin n → Clock) (limits : EngineLimits) :
    (withClockAndLimits clocks limits).Inv where
  shards i := Engine.inv_withClockAndLimits (clocks i) _
  limits _ := rfl
  routed := by
    rintro i id tagId ⟨entry, hl, -⟩
    simp [withClockAndLimits, Engine.withClockAndLimits] at hl

/-! ## Sections -/

@[simp] theorem onShard_shards_self {α : Type} (s : ShardedEngine n) (i : Fin n)
    (body : Engine → α × Engine) : (s.onShard i body).2.shards i = (body (s.shards i)).2 :=
  Function.update_self ..

theorem onShard_shards_of_ne {α : Type} (hj : j ≠ i) (body : Engine → α × Engine) :
    (s.onShard i body).2.shards j = s.shards j :=
  Function.update_of_ne hj ..

theorem holds_updateTagRoutes {routes : RouteUpdate} :
    (s.updateTagRoutes i routes).tagDirectory.Holds tagId j ↔
      (tagId ∈ routes.addTags ∧ j = i) ∨
        s.tagDirectory.Holds tagId j ∧ ¬ (tagId ∈ routes.removeTags ∧ j = i) := by
  unfold updateTagRoutes
  split
  · next h =>
    rw [Bool.and_eq_true, List.isEmpty_iff, List.isEmpty_iff] at h
    simp [h.1, h.2]
  · simp only [MultiMap.holds_foldl_add, MultiMap.holds_foldl_discard]

@[simp] theorem updateTagRoutes_shards (s : ShardedEngine n) (i : Fin n) (routes : RouteUpdate) :
    (s.updateTagRoutes i routes).shards = s.shards := by
  unfold updateTagRoutes
  split <;> rfl

@[simp] theorem updateTagRoutes_limits (s : ShardedEngine n) (i : Fin n) (routes : RouteUpdate) :
    (s.updateTagRoutes i routes).limits = s.limits := by
  unfold updateTagRoutes
  split <;> rfl

/-- A section on shard `i`, followed by its update of the routes, keeps the invariant. -/
theorem Inv.section {α : Type} (H : s.Inv) {body : Engine → α × Engine} {routes : RouteUpdate}
    (hok : Engine.SectionOk (s.shards i) (body (s.shards i)).2 routes) :
    ((s.onShard i body).2.updateTagRoutes i routes).Inv := by
  refine ⟨fun j => ?_, fun j => ?_, fun j id tagId hc => ?_⟩
  · rw [updateTagRoutes_shards]
    by_cases hj : j = i
    · subst hj
      simpa [onShard] using hok.inv
    · simpa [onShard, hj] using H.shards j
  · rw [updateTagRoutes_shards, updateTagRoutes_limits]
    by_cases hj : j = i
    · subst hj
      simpa [onShard] using hok.later.limits.trans (H.limits j)
    · simpa [onShard, hj] using H.limits j
  · rw [updateTagRoutes_shards] at hc
    rw [holds_updateTagRoutes]
    by_cases hj : j = i
    · subst hj
      have hc' : (body (s.shards j)).2.Carries id tagId := by simpa [onShard] using hc
      rcases hok.carries id tagId hc' with hbefore | hadd
      · exact .inr ⟨H.routed j id tagId hbefore, fun h => hok.removed tagId h.1 id hc'⟩
      · exact .inl ⟨hadd, rfl⟩
    · have hc' : (s.shards j).Carries id tagId := by simpa [onShard, hj] using hc
      exact .inr ⟨H.routed j id tagId hc', fun h => hj h.2⟩

/-- A section that asks for no routes keeps the invariant by itself. -/
theorem Inv.onShard {α : Type} (H : s.Inv) {body : Engine → α × Engine}
    (hok : Engine.SectionOk (s.shards i) (body (s.shards i)).2 ⟨[], []⟩) :
    (s.onShard i body).2.Inv :=
  H.section hok

/-! ## Invalidation -/

theorem takeRoutes_spec (s : ShardedEngine n) (o : IterOrder) (tagId : TagId) :
    ∃ indices : List (Fin n), indices.Nodup ∧
      (∀ i, i ∈ indices ↔ s.tagDirectory.Holds tagId i) ∧
      s.takeRoutes o tagId =
        (indices, { s with tagDirectory := s.tagDirectory.erase tagId }) := by
  unfold takeRoutes
  cases hl : s.tagDirectory.lookup tagId with
  | none =>
    refine ⟨[], List.nodup_nil, fun i => by simp [MultiMap.Holds, hl], ?_⟩
    rw [HashMap.erase_of_lookup_none hl]
  | some indices =>
    refine ⟨o.order indices.keys, o.nodup_order.mpr indices.keys_nodup, fun i => ?_, rfl⟩
    rw [o.mem_order]
    simp [MultiMap.Holds, hl, AList.mem_keys]

/-- Each of the visited shards, and no other one, invalidates the tag. -/
theorem invalidateShards_eq (o : IterOrder) (ns tag : String) {indices : List (Fin n)}
    (hnodup : indices.Nodup) (s : ShardedEngine n) :
    invalidateShards o ns tag indices s =
      ((indices.map fun i => ((s.shards i).invalidateTag o ns tag).1).sum,
        { s with
          shards := fun j =>
            if j ∈ indices then ((s.shards j).invalidateTag o ns tag).2 else s.shards j }) := by
  induction indices generalizing s with
  | nil => rfl
  | cons i indices ih =>
    obtain ⟨hnew, hnodup'⟩ := List.nodup_cons.mp hnodup
    simp only [invalidateShards, ih hnodup', onShard, List.map_cons, List.sum_cons]
    refine Prod.ext ?_ ?_
    · refine congrArg (_ + ·) (congrArg List.sum (List.map_congr_left fun j hj => ?_))
      have hne : j ≠ i := fun h => hnew (h ▸ hj)
      rw [Function.update_of_ne hne]
    · simp only [ShardedEngine.mk.injEq, and_self, and_true]
      funext j
      by_cases hj : j = i
      · subst hj
        simp [hnew]
      · simp [hj]

theorem invalidateTag_spec (s : ShardedEngine n) (o : IterOrder) (ns tag : String) :
    ∃ indices : List (Fin n), indices.Nodup ∧
      (∀ i, i ∈ indices ↔ s.tagDirectory.Holds ⟨ns, tag⟩ i) ∧
      s.invalidateTag o ns tag =
        ((indices.map fun i => ((s.shards i).invalidateTag o ns tag).1).sum,
          { s with
            shards := fun j =>
              if j ∈ indices then ((s.shards j).invalidateTag o ns tag).2 else s.shards j
            tagDirectory := s.tagDirectory.erase ⟨ns, tag⟩ }) := by
  obtain ⟨indices, hnodup, hindices, heq⟩ := takeRoutes_spec s o ⟨ns, tag⟩
  refine ⟨indices, hnodup, hindices, ?_⟩
  rw [invalidateTag, heq]
  exact invalidateShards_eq o ns tag hnodup _

theorem Inv.invalidateTag (H : s.Inv) (o : IterOrder) (ns tag : String) :
    (s.invalidateTag o ns tag).2.Inv := by
  obtain ⟨indices, -, hindices, heq⟩ := invalidateTag_spec s o ns tag
  have hok := fun j => Engine.sectionOk_exec (H.shards j) (.invalidateTag o ns tag) rfl
  rw [heq]
  refine ⟨fun j => ?_, fun j => ?_, fun j id tagId hc => ?_⟩ <;> dsimp only at *
  · split
    · exact (hok j).inv
    · exact H.shards j
  · split
    · exact (hok j).later.limits.trans (H.limits j)
    · exact H.limits j
  · rw [MultiMap.holds_erase]
    split at hc
    · refine ⟨H.routed j id tagId (((hok j).carries id tagId hc).resolve_right nofun), ?_⟩
      -- the shard has just invalidated the tag
      rintro rfl
      exact Engine.not_carries_invalidateTag (H.shards j) o ns tag id hc
    · next hj =>
      refine ⟨H.routed j id tagId hc, ?_⟩
      rintro rfl
      exact hj ((hindices j).mpr (H.routed j id _ hc))

/-- Under the invariant `invalidate_tag` removes the entries with the tag from all shards, counts
them, and leaves every other entry alone. -/
theorem invalidateTag_correct (H : s.Inv) (o : IterOrder) (ns tag : String) :
    (s.invalidateTag o ns tag).1 = ∑ i, (s.shards i).carrierCount ⟨ns, tag⟩ ∧
      ∀ i id,
        ((s.shards i).Carries id ⟨ns, tag⟩ →
          ((s.invalidateTag o ns tag).2.shards i).entries.lookup id = none) ∧
        (¬ (s.shards i).Carries id ⟨ns, tag⟩ →
          ((s.invalidateTag o ns tag).2.shards i).entries.lookup id =
            (s.shards i).entries.lookup id) := by
  obtain ⟨indices, hnodup, hindices, heq⟩ := invalidateTag_spec s o ns tag
  have hshard := fun i => Engine.invalidateTag_correct (H.shards i) o ns tag
  have hunrouted : ∀ i, i ∉ indices → ∀ id, ¬ (s.shards i).Carries id ⟨ns, tag⟩ :=
    fun i hi id hc => hi ((hindices i).mpr (H.routed i id _ hc))
  refine ⟨?_, fun i id => ?_⟩
  · have hzero : ∀ i, i ∉ indices → (s.shards i).carrierCount ⟨ns, tag⟩ = 0 := by
      intro i hi
      have hnil : ∀ id, id ∈ ([] : List EntryId) ↔ (s.shards i).Carries id ⟨ns, tag⟩ :=
        fun id => ⟨nofun, fun hc => absurd hc (hunrouted i hi id)⟩
      exact (Engine.length_of_carriers List.nodup_nil hnil).symm
    rw [heq]
    simp only [fun i => (hshard i).1]
    rw [← List.sum_toFinset _ hnodup]
    refine Finset.sum_subset (Finset.subset_univ _) fun i _ hi => hzero i ?_
    rwa [List.mem_toFinset] at hi
  · rw [heq]
    dsimp only
    split
    · exact (hshard i).2 id
    · next hi => exact ⟨fun hc => absurd hc (hunrouted i hi id), fun _ => rfl⟩

/-! ## One shard at a time -/

/-- The operations that `op` makes a shard perform. -/
def Parts (op : Op) : Op → Prop :=
  match op with
  | .batchGet ns keys => fun part => ∃ key ∈ keys, part = .get ns key
  | .reclaimExpiredBudget _ => fun part => ∃ maxEntries, part = .reclaimExpiredBudget maxEntries
  | op => fun part => part = op

/-- Every shard satisfies `I`. -/
def AllShards (I : Engine → Prop) (s : ShardedEngine n) : Prop := ∀ i, I (s.shards i)

section
variable {I : Engine → Prop}

theorem AllShards.onShard {α : Type} {body : Engine → α × Engine} (h : AllShards I s)
    (hbody : I (body (s.shards i)).2) : AllShards I (s.onShard i body).2 := by
  intro j
  by_cases hj : j = i
  · subst hj
    simpa [ShardedEngine.onShard] using hbody
  · simpa [ShardedEngine.onShard, hj] using h j

theorem AllShards.section {α : Type} (h : AllShards I s) (i : Fin n)
    (body : Engine → (α × RouteUpdate) × Engine) (hbody : I (body (s.shards i)).2) :
    AllShards I ((s.onShard i body).2.updateTagRoutes i (s.onShard i body).1.2) := by
  intro j
  rw [updateTagRoutes_shards]
  exact h.onShard hbody j

theorem reclaimShards_zero (indices : List (Fin n)) (s : ShardedEngine n) :
    reclaimShards indices 0 s = (0, s) := by
  cases indices <;> rfl

/-- The section of `reclaim_expired_budget` on the first shard, and the rest of the loop. -/
theorem reclaimShards_cons {remaining : Nat} (hpos : remaining ≠ 0) (i : Fin n)
    (indices : List (Fin n)) (s : ShardedEngine n) :
    reclaimShards (i :: indices) remaining s =
      let removed := ((s.shards i).reclaimExpiredBudget remaining).1
      let s₁ := (s.onShard i fun shard => shard.reclaimExpiredBudget remaining).2
      (removed + (reclaimShards indices (remaining - removed) s₁).1,
        (reclaimShards indices (remaining - removed) s₁).2) := by
  rw [reclaimShards, if_neg hpos]
  rfl

/-- The loop leaves the shards alone that it does not visit. -/
theorem reclaimShards_shards_of_notMem {indices : List (Fin n)} (hi : i ∉ indices)
    (remaining : Nat) (s : ShardedEngine n) :
    (reclaimShards indices remaining s).2.shards i = s.shards i := by
  induction indices generalizing remaining s with
  | nil => rfl
  | cons j indices ih =>
    rw [List.mem_cons, not_or] at hi
    by_cases hpos : remaining = 0
    · rw [hpos, reclaimShards_zero]
    · rw [reclaimShards_cons hpos]
      exact (ih hi.2 _ _).trans (onShard_shards_of_ne hi.1 _)

/-- The rule for the loop over the shards. Its invariant `P` is about the shards still to visit, the
budget left for them and the number of entries removed so far; `Q` is about a visited shard and the
number of entries removed from it. -/
theorem reclaimShards_invariant {P : List (Fin n) → Nat → Nat → Prop}
    {Q : Fin n → Nat → Engine → Prop}
    (hstop : ∀ indices removed, P indices 0 removed →
      P [] 0 removed ∧ ∀ i ∈ indices, Q i 0 (s.shards i))
    (hstep : ∀ i indices remaining removed, remaining ≠ 0 → P (i :: indices) remaining removed →
      let result := (s.shards i).reclaimExpiredBudget remaining
      P indices (remaining - result.1) (removed + result.1) ∧ Q i result.1 result.2)
    {indices : List (Fin n)} (hnodup : indices.Nodup) (remaining removed : Nat)
    (hP : P indices remaining removed) :
    ∃ (counts : Fin n → Nat) (left : Nat), P [] left (removed + (indices.map counts).sum) ∧
      (reclaimShards indices remaining s).1 = (indices.map counts).sum ∧
      ∀ i ∈ indices, Q i (counts i) ((reclaimShards indices remaining s).2.shards i) := by
  -- the earlier sections leave the shards still to visit as they are in `s`
  suffices hloop : ∀ s₁ : ShardedEngine n, (∀ i ∈ indices, s₁.shards i = s.shards i) →
      ∃ (counts : Fin n → Nat) (left : Nat), P [] left (removed + (indices.map counts).sum) ∧
        (reclaimShards indices remaining s₁).1 = (indices.map counts).sum ∧
        ∀ i ∈ indices, Q i (counts i) ((reclaimShards indices remaining s₁).2.shards i) from
    hloop s fun _ _ => rfl
  induction indices generalizing remaining removed with
  | nil => exact fun _ _ => ⟨fun _ => 0, remaining, hP, rfl, nofun⟩
  | cons i indices ih =>
    intro s₁ hs₁
    by_cases hpos : remaining = 0
    · subst hpos
      obtain ⟨hend, hall⟩ := hstop _ _ hP
      rw [reclaimShards_zero]
      exact ⟨fun _ => 0, 0, by simpa using hend, by simp, fun j hj => hs₁ j hj ▸ hall j hj⟩
    obtain ⟨hnew, hnodup'⟩ := List.nodup_cons.mp hnodup
    obtain ⟨hrest, hQ⟩ := hstep i indices remaining removed hpos hP
    rw [List.forall_mem_cons] at hs₁
    have hne : ∀ j ∈ indices, j ≠ i := fun j hj h => hnew (h ▸ hj)
    obtain ⟨counts, left, hend, hsum, hshards⟩ := ih hnodup' _ _ hrest
      (s₁.onShard i fun shard => shard.reclaimExpiredBudget remaining).2
      fun j hj => (onShard_shards_of_ne (hne j hj) _).trans (hs₁.2 j hj)
    have hcounts : ∀ count, indices.map (Function.update counts i count) = indices.map counts :=
      fun _ => List.map_congr_left fun j hj => Function.update_of_ne (hne j hj) ..
    rw [reclaimShards_cons hpos, hs₁.1]
    dsimp only
    refine ⟨Function.update counts i ((s.shards i).reclaimExpiredBudget remaining).1, left, ?_, ?_,
      List.forall_mem_cons.mpr ⟨?_, fun j hj => ?_⟩⟩
    · rw [List.map_cons, List.sum_cons, Function.update_self, hcounts, ← Nat.add_assoc]
      exact hend
    · rw [List.map_cons, List.sum_cons, Function.update_self, hcounts, hsum]
    · rw [Function.update_self, reclaimShards_shards_of_notMem hnew, onShard_shards_self, hs₁.1]
      exact hQ
    · rw [Function.update_of_ne (hne j hj)]
      exact hshards j hj

/-- Every shard is left alone or cleaned up once, with some budget. -/
theorem reclaimShards_shards {indices : List (Fin n)} (hnodup : indices.Nodup) (remaining : Nat)
    (s : ShardedEngine n) (i : Fin n) :
    (reclaimShards indices remaining s).2.shards i = s.shards i ∨
      ∃ maxEntries, (reclaimShards indices remaining s).2.shards i =
        ((s.shards i).reclaimExpiredBudget maxEntries).2 := by
  by_cases hi : i ∈ indices
  · obtain ⟨-, -, -, -, hshards⟩ := reclaimShards_invariant (s := s) (P := fun _ _ _ => True)
      (Q := fun i _ shard => shard = s.shards i ∨
        ∃ maxEntries, shard = ((s.shards i).reclaimExpiredBudget maxEntries).2)
      (fun _ _ _ => ⟨trivial, fun _ _ => .inl rfl⟩)
      (fun _ _ remaining _ _ _ => ⟨trivial, .inr ⟨remaining, rfl⟩⟩) hnodup remaining 0 trivial
    exact hshards i hi
  · exact .inl (reclaimShards_shards_of_notMem hi remaining s)

theorem reclaimShards_tagDirectory (indices : List (Fin n)) (remaining : Nat)
    (s : ShardedEngine n) :
    (reclaimShards indices remaining s).2.tagDirectory = s.tagDirectory := by
  induction indices generalizing remaining s with
  | nil => rfl
  | cons i indices ih =>
    unfold reclaimShards
    split
    · rfl
    · exact ih _ _

theorem AllShards.reclaimShards
    (hI : ∀ e maxEntries, I e → I (e.reclaimExpiredBudget maxEntries).2)
    (indices : List (Fin n)) (remaining : Nat) (h : AllShards I s) :
    AllShards I (reclaimShards indices remaining s).2 := by
  induction indices generalizing s remaining with
  | nil => exact h
  | cons i indices ih =>
    unfold ShardedEngine.reclaimShards
    split
    · exact h
    · exact ih _ (h.onShard (hI _ _ (h i)))

/-- Every shard performs its own part of a `batch_get`. -/
theorem batchGet_shards [NeZero n] (hash : String → Bytes → Nat) (ns : String)
    (keys : List Bytes) (s : ShardedEngine n) (i : Fin n) :
    (batchGet hash ns keys s).2.shards i =
      ((s.shards i).batchGet ns (keys.filter fun key => shardIndexFor hash ns key = i)).2 := by
  induction keys generalizing s with
  | nil => rfl
  | cons key keys ih =>
    refine (ih (s.get hash ns key).2).trans ?_
    by_cases hi : shardIndexFor hash ns key = i
    · subst hi
      rw [List.filter_cons_of_pos (by simp), ShardedEngine.get, onShard_shards_self]
      rfl
    · rw [List.filter_cons_of_neg (by simp [hi]), ShardedEngine.get,
        onShard_shards_of_ne (Ne.symm hi)]

theorem batchGet_tagDirectory [NeZero n] (hash : String → Bytes → Nat) (ns : String)
    (keys : List Bytes) (s : ShardedEngine n) :
    (batchGet hash ns keys s).2.tagDirectory = s.tagDirectory := by
  induction keys generalizing s with
  | nil => rfl
  | cons key keys ih => exact ih (s.get hash ns key).2

theorem AllShards.batchGet [NeZero n] (hash : String → Bytes → Nat) (ns : String)
    (keys : List Bytes) (hI : ∀ e, ∀ key ∈ keys, I e → I (e.get ns key).2) (h : AllShards I s) :
    AllShards I (batchGet hash ns keys s).2 := by
  induction keys generalizing s with
  | nil => exact h
  | cons key keys ih =>
    have hget : AllShards I (s.get hash ns key).2 :=
      h.onShard (hI _ key List.mem_cons_self (h _))
    exact ih (fun e k hk => hI e k (List.mem_cons_of_mem _ hk)) hget

/-- What the parts of an operation preserve on an engine, the operation preserves on all shards. -/
theorem AllShards.exec [NeZero n] (hash : String → Bytes → Nat) (op : Op)
    (hI : ∀ e part, Parts op part → I e → I (e.exec part).2) (h : AllShards I s) :
    AllShards I (s.exec hash op).2 := by
  cases op with
  | put o command =>
    exact h.section _ (Engine.putSection o command) (hI _ (.put o command) rfl (h _))
  | completeLease o command =>
    exact h.section _ (Engine.completeLeaseSection o command)
      (hI _ (.completeLease o command) rfl (h _))
  | delete ns key =>
    exact h.section _ (Engine.deleteSection ns key) (hI _ (.delete ns key) rfl (h _))
  | get ns key =>
    show AllShards I (s.get hash ns key).2
    exact h.onShard (hI _ (.get ns key) rfl (h _))
  | getRef ns key =>
    show AllShards I (s.getRef hash ns key id).2
    exact h.onShard (hI _ (.getRef ns key) rfl (h _))
  | getRefWithoutAccessUpdate ns key =>
    show AllShards I (s.getRefWithoutAccessUpdate hash ns key id).2
    exact h.onShard (hI _ (.getRefWithoutAccessUpdate ns key) rfl (h _))
  | startLease ns key leaseTtlMs =>
    show AllShards I (s.startLease hash ns key leaseTtlMs).2
    exact h.onShard (hI _ (.startLease ns key leaseTtlMs) rfl (h _))
  | batchGet ns keys =>
    exact h.batchGet hash ns keys fun e key hkey => hI e (.get ns key) ⟨key, hkey, rfl⟩
  | invalidateTag o ns tag =>
    obtain ⟨indices, -, -, heq⟩ := invalidateTag_spec s o ns tag
    intro j
    show I ((s.invalidateTag o ns tag).2.shards j)
    rw [heq]
    dsimp only
    split
    · exact hI _ (.invalidateTag o ns tag) rfl (h j)
    · exact h j
  | reclaimExpiredBudget maxEntries =>
    exact h.reclaimShards (fun e k => hI e (.reclaimExpiredBudget k) ⟨k, rfl⟩) _ _

end

/-! ## Runs -/

theorem Inv.reclaimShards (indices : List (Fin n)) (remaining : Nat) (H : s.Inv) :
    (reclaimShards indices remaining s).2.Inv := by
  induction indices generalizing s remaining with
  | nil => exact H
  | cons i indices ih =>
    unfold ShardedEngine.reclaimShards
    split
    · exact H
    · exact ih _ (H.onShard (Engine.sectionOk_exec (H.shards i) (.reclaimExpiredBudget remaining)
        rfl))

section
variable [NeZero n] (hash : String → Bytes → Nat)

theorem Inv.get (H : s.Inv) (ns : String) (key : Bytes) : (s.get hash ns key).2.Inv :=
  H.onShard (Engine.sectionOk_exec (H.shards _) (.get ns key) rfl)

theorem Inv.batchGet (H : s.Inv) (ns : String) (keys : List Bytes) :
    (ShardedEngine.batchGet hash ns keys s).2.Inv := by
  induction keys generalizing s with
  | nil => exact H
  | cons key keys ih => exact ih (H.get hash ns key)

/-- Every operation keeps the invariant. -/
theorem Inv.exec (H : s.Inv) (op : Op) : (s.exec hash op).2.Inv := by
  cases op with
  | put o command => exact H.section (Engine.sectionOk_put (H.shards _) o command)
  | get ns key => exact H.get hash ns key
  | getRef ns key =>
    show (s.getRef hash ns key id).2.Inv
    exact H.onShard (Engine.sectionOk_exec (H.shards _) (.getRef ns key) rfl)
  | getRefWithoutAccessUpdate ns key =>
    show (s.getRefWithoutAccessUpdate hash ns key id).2.Inv
    exact H.onShard (Engine.sectionOk_exec (H.shards _) (.getRefWithoutAccessUpdate ns key) rfl)
  | batchGet ns keys => exact H.batchGet hash ns keys
  | delete ns key => exact H.section (Engine.sectionOk_delete (H.shards _) ns key)
  | invalidateTag o ns tag => exact H.invalidateTag o ns tag
  | startLease ns key leaseTtlMs =>
    show (s.startLease hash ns key leaseTtlMs).2.Inv
    exact H.onShard (Engine.sectionOk_exec (H.shards _) (.startLease ns key leaseTtlMs) rfl)
  | completeLease o command =>
    exact H.section (Engine.sectionOk_completeLease (H.shards _) o command)
  | reclaimExpiredBudget maxEntries => exact H.reclaimShards _ _

theorem inv_run (clocks : Fin n → Clock) (limits : EngineLimits) (ops : List Op) :
    ((withClockAndLimits clocks limits).run hash ops).Inv :=
  Machine.run_invariant (fun _ op H => H.exec hash op) (inv_withClockAndLimits clocks limits) ops

/-- **Sequential tag routing is complete.** After every sequence of operations the directory lists
each shard with an entry that has the tag, so `invalidate_tag` removes exactly the entries with the
tag, wherever they are, and returns their number. -/
theorem tag_routing_complete (clocks : Fin n → Clock) (limits : EngineLimits) (ops : List Op) :
    let s := (withClockAndLimits clocks limits).run hash ops
    (∀ i id ns tag, (s.shards i).Carries id ⟨ns, tag⟩ → s.tagDirectory.Holds ⟨ns, tag⟩ i) ∧
      ∀ (o : IterOrder) (ns tag : String),
        (s.invalidateTag o ns tag).1 = ∑ i, (s.shards i).carrierCount ⟨ns, tag⟩ ∧
        ∀ i id,
          ((s.shards i).Carries id ⟨ns, tag⟩ →
            ((s.invalidateTag o ns tag).2.shards i).entries.lookup id = none) ∧
          (¬ (s.shards i).Carries id ⟨ns, tag⟩ →
            ((s.invalidateTag o ns tag).2.shards i).entries.lookup id =
              (s.shards i).entries.lookup id) := by
  intro s
  have H : s.Inv := inv_run hash clocks limits ops
  exact ⟨fun i id ns tag hc => H.routed i id _ hc, fun o ns tag => invalidateTag_correct H o ns tag⟩

end

/-- A put of a one-byte value for `key` with one tag. -/
def taggedPut (key : Bytes) : PutCommand :=
  { ns := "app", key := key, value := [118], ttl := none, staleTtl := none, tags := ["red"]
    cost := none }

/-- Two entries with the tag in different shards are both removed. -/
theorem tag_routing_complete_two_shards :
    (((withClockAndLimits (n := 2) (fun _ => ⟨fun _ => 5, 0⟩) default).run (fun _ key => key.length)
      [.put .asStored (taggedPut [1]), .put .asStored (taggedPut [1, 2])]).invalidateTag .asStored
        "app" "red").1 = 2 :=
  ((tag_routing_complete (n := 2) (fun _ key => key.length) (fun _ => ⟨fun _ => 5, 0⟩) default
    [.put .asStored (taggedPut [1]), .put .asStored (taggedPut [1, 2])]).2 .asStored "app"
      "red").1.trans (by decide +kernel)

end ShardedEngine
end Cachebox
