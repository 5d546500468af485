import Cachebox.Sharded.Concurrent

/-!
# Tag routes under concurrency

The decision to remove a route is taken under the lock of the shard and carried out later under the
lock of the directory. In between another caller may store an entry with the tag in the same shard
and add the route that is about to be removed, and then the entry is hidden from `invalidate_tag`.

Without such a removal every entry is covered: its shard is routed, or a call in progress is going
to add the route or to visit the shard for the tag (`Covered`).
-/

namespace Cachebox

variable {n : Nat}

/-- The call is going to route the tag to shard `i`, or to invalidate it there. -/
def Call.Covers (i : Fin n) (tagId : TagId) : Call n → Prop
  | .updateTagRoutes j routes _ => j = i ∧ tagId ∈ routes.addTags
  | .invalidateShards _ ns tag indices _ => tagId = ⟨ns, tag⟩ ∧ i ∈ indices
  | _ => False

/-- The section does not unroute a tag from a shard with entries that nothing else covers. A
section that only runs on a shard, and one that only adds routes, is always safe. -/
def Call.Safe (s : ShardedEngine n) (call : Call n) (others : Call n → Prop) : Prop :=
  match call with
  | .updateTagRoutes i routes _ =>
    ∀ tagId ∈ routes.removeTags, tagId ∉ routes.addTags →
      (∀ id, ¬ (s.shards i).Carries id tagId) ∨ ∃ call', others call' ∧ call'.Covers i tagId
  | _ => True

namespace ShardedEngine

variable {s : ShardedEngine n} {P Q : Call n → Prop}

/-- The invariant of the sharded engine while the calls in `P` are in progress. -/
structure Covered (s : ShardedEngine n) (P : Call n → Prop) : Prop where
  shards : ∀ i, (s.shards i).Inv
  limits : ∀ i, (s.shards i).limits = s.limits.forShard n
  covered : ∀ i id tagId, (s.shards i).Carries id tagId →
    s.tagDirectory.Holds tagId i ∨ ∃ call, P call ∧ call.Covers i tagId

theorem Covered.mono (hPQ : ∀ call, P call → Q call) (H : s.Covered P) : s.Covered Q :=
  ⟨H.shards, H.limits, fun i id tagId hc =>
    (H.covered i id tagId hc).imp_right fun ⟨call, hcall, h⟩ => ⟨call, hPQ call hcall, h⟩⟩

/-- With no call in progress, an engine that is covered is routed. -/
theorem Covered.inv (H : s.Covered P) (hP : ∀ call, ¬ P call) : s.Inv :=
  ⟨H.shards, H.limits, fun i id tagId hc =>
    (H.covered i id tagId hc).resolve_right fun ⟨call, hcall, _⟩ => hP call hcall⟩

/-- A section on shard `i` that leaves the directory alone. -/
theorem Covered.section {α : Type} {i : Fin n} (H : s.Covered P) {body : Engine → α × Engine}
    {routes : RouteUpdate} (hok : Engine.SectionOk (s.shards i) (body (s.shards i)).2 routes)
    (hpending : ∀ j id tagId call, ((s.onShard i body).2.shards j).Carries id tagId → P call →
      call.Covers j tagId → ∃ call', Q call' ∧ call'.Covers j tagId)
    (hadd : ∀ tagId ∈ routes.addTags, ∃ call', Q call' ∧ call'.Covers i tagId) :
    (s.onShard i body).2.Covered Q := by
  have hshards : ∀ j, (s.onShard i body).2.shards j =
      if j = i then (body (s.shards i)).2 else s.shards j := by
    intro j
    simp only [onShard, Function.update_apply]
  refine ⟨fun j => ?_, fun j => ?_, fun j id tagId hc => ?_⟩
  · rw [hshards]
    split
    · exact hok.inv
    · exact H.shards j
  · rw [hshards]
    split
    · exact hok.later.limits.trans (H.limits i)
    · exact H.limits j
  · have hbefore : (s.shards j).Carries id tagId ∨ j = i ∧ tagId ∈ routes.addTags := by
      have hc' := hc
      rw [hshards] at hc'
      split at hc'
      · next hj =>
        subst hj
        exact (hok.carries id tagId hc').imp_right fun h => ⟨rfl, h⟩
      · exact .inl hc'
    rcases hbefore with hb | ⟨rfl, hmem⟩
    · refine (H.covered j id tagId hb).imp_right ?_
      rintro ⟨call, hcall, h⟩
      exact hpending j id tagId call hc hcall h
    · exact .inr (hadd tagId hmem)

end ShardedEngine

namespace Call

variable {s : ShardedEngine n} {others : Call n → Prop} {call : Call n}

/-- What is covered by the calls in progress, when the call of this thread covers nothing. -/
theorem covered_others {i : Fin n} {tagId : TagId} (hnone : ∀ i tagId, ¬ call.Covers i tagId)
    (h : ∃ call', (call' = call ∨ others call') ∧ call'.Covers i tagId) :
    ∃ call', others call' ∧ call'.Covers i tagId := by
  obtain ⟨call', rfl | hother, hcovers⟩ := h
  · exact absurd hcovers (hnone i tagId)
  · exact ⟨call', hother, hcovers⟩

/-- A section of a write or a deletion, which goes on to the directory if routes change. -/
theorem covered_thenRoutes {α : Type} {i : Fin n} {body : Engine → α × Engine}
    {routes : RouteUpdate} {outcome : Outcome} (H : s.Covered fun k => k = call ∨ others k)
    (hnone : ∀ i tagId, ¬ call.Covers i tagId)
    (hok : Engine.SectionOk (s.shards i) (body (s.shards i)).2 routes) :
    (s.onShard i body).2.Covered ((thenRoutes i routes outcome).With others) := by
  have hothers : ∀ k, others k → (thenRoutes i routes outcome).With others k := by
    intro k hk
    unfold thenRoutes
    split
    · exact hk
    · exact .inr hk
  refine H.section hok (fun j id tagId k _ hk hcovers => ?_) fun tagId hmem => ?_
  · obtain ⟨k', hk', h'⟩ := covered_others hnone ⟨k, hk, hcovers⟩
    exact ⟨k', hothers k' hk', h'⟩
  · have hadd : ¬ (routes.addTags.isEmpty && routes.removeTags.isEmpty) := by
      intro h
      rw [Bool.and_eq_true, List.isEmpty_iff] at h
      rw [h.1] at hmem
      cases hmem
    refine ⟨.updateTagRoutes i routes outcome, ?_, rfl, hmem⟩
    rw [thenRoutes, if_neg hadd]
    exact .inl rfl

/-- A section of a call that never has to do with routes. -/
theorem covered_read {α : Type} {i : Fin n} {body : Engine → α × Engine} {Q : Call n → Prop}
    (H : s.Covered fun k => k = call ∨ others k) (hnone : ∀ i tagId, ¬ call.Covers i tagId)
    (hothers : ∀ k, others k → Q k)
    (hok : Engine.SectionOk (s.shards i) (body (s.shards i)).2 ⟨[], []⟩) :
    (s.onShard i body).2.Covered Q := by
  refine H.section hok (fun j id tagId k _ hk hcovers => ?_) nofun
  obtain ⟨k', hk', h'⟩ := covered_others hnone ⟨k, hk, hcovers⟩
  exact ⟨k', hothers k' hk', h'⟩

/-- The section on the directory of a safe call. -/
theorem covered_updateTagRoutes {i : Fin n} {routes : RouteUpdate} {outcome : Outcome}
    (hsafe : Safe s (.updateTagRoutes i routes outcome) others)
    (H : s.Covered fun k => k = .updateTagRoutes i routes outcome ∨ others k) :
    (s.updateTagRoutes i routes).Covered others := by
  refine ⟨fun j => ?_, fun j => ?_, fun j id tagId hc => ?_⟩
  · rw [ShardedEngine.updateTagRoutes_shards]
    exact H.shards j
  · rw [ShardedEngine.updateTagRoutes_shards, ShardedEngine.updateTagRoutes_limits]
    exact H.limits j
  rw [ShardedEngine.updateTagRoutes_shards] at hc
  rw [ShardedEngine.holds_updateTagRoutes]
  by_cases hadded : tagId ∈ routes.addTags ∧ j = i
  · exact .inl (.inl hadded)
  rcases H.covered j id tagId hc with hroute | ⟨k, rfl | hk, hcovers⟩
  · by_cases hremoved : tagId ∈ routes.removeTags ∧ j = i
    · -- the route goes away: by assumption nothing is left to hide, or another call covers it
      obtain ⟨hmem, rfl⟩ := hremoved
      rcases hsafe tagId hmem fun h => hadded ⟨h, rfl⟩ with hempty | hother
      · exact absurd hc (hempty id)
      · exact .inr hother
    · exact .inl (.inr ⟨hroute, hremoved⟩)
  · exact absurd ⟨hcovers.2, hcovers.1.symm⟩ hadded
  · exact .inr ⟨k, hk, hcovers⟩

/-- The section of an invalidation on the directory: the routes become visits. -/
theorem covered_takeRoutes {o : IterOrder} {ns tag : String}
    (H : s.Covered fun k => k = .invalidateTag o ns tag ∨ others k) :
    (s.takeRoutes o ⟨ns, tag⟩).2.Covered
      ((thenShards o ns tag (s.takeRoutes o ⟨ns, tag⟩).1 0).With others) := by
  obtain ⟨indices, -, hindices, heq⟩ := ShardedEngine.takeRoutes_spec s o ⟨ns, tag⟩
  rw [heq]
  refine ⟨H.shards, H.limits, fun j id tagId hc => ?_⟩
  have hothers : ∀ k, others k → (thenShards o ns tag indices 0).With others k := by
    intro k hk
    unfold thenShards
    split
    · exact hk
    · exact .inr hk
  rcases H.covered j id tagId hc with hroute | ⟨k, rfl | hk, hcovers⟩
  · by_cases htag : tagId = ⟨ns, tag⟩
    · subst htag
      have hmem := (hindices j).mpr hroute
      refine .inr ⟨.invalidateShards o ns tag indices 0, ?_, rfl, hmem⟩
      have hne : ¬ indices.isEmpty := fun h => by
        rw [List.isEmpty_iff.mp h] at hmem
        cases hmem
      rw [thenShards, if_neg hne]
      exact .inl rfl
    · exact .inl (MultiMap.holds_erase.mpr ⟨hroute, htag⟩)
  · cases hcovers
  · exact .inr ⟨k, hothers k hk, hcovers⟩

/-- The visit of an invalidation to a shard: no entry with the tag is left there to be covered. -/
theorem covered_invalidateShards {o : IterOrder} {ns tag : String} {i : Fin n}
    {indices : List (Fin n)} {removed removed' : Nat}
    (H : s.Covered fun k => k = .invalidateShards o ns tag (i :: indices) removed ∨ others k) :
    (s.onShard i fun shard => shard.invalidateTag o ns tag).2.Covered
      ((thenShards o ns tag indices removed').With others) := by
  have hok := Engine.sectionOk_exec (H.shards i) (.invalidateTag o ns tag) rfl
  refine H.section hok (fun j id tagId k hc hk hcovers => ?_) nofun
  rcases hk with rfl | hk
  · obtain ⟨rfl, hmem⟩ := hcovers
    have hj : j ≠ i := by
      rintro rfl
      refine Engine.not_carries_invalidateTag (H.shards j) o ns tag id ?_
      simpa [ShardedEngine.onShard] using hc
    have hrest := (List.mem_cons.mp hmem).resolve_left hj
    refine ⟨.invalidateShards o ns tag indices removed', ?_, rfl, hrest⟩
    have hne : ¬ indices.isEmpty := fun h => by
      rw [List.isEmpty_iff.mp h] at hrest
      cases hrest
    rw [thenShards, if_neg hne]
    exact .inl rfl
  · refine ⟨k, ?_, hcovers⟩
    unfold thenShards
    split
    · exact hk
    · exact .inr hk

theorem covered_done (H : s.Covered fun k => k = call ∨ others k)
    (hnone : ∀ i tagId, ¬ call.Covers i tagId) : s.Covered others :=
  ⟨H.shards, H.limits, fun i id tagId hc =>
    (H.covered i id tagId hc).imp_right (covered_others hnone)⟩

variable [NeZero n] (hash : String → Bytes → Nat)

/-- Every safe section keeps the entries covered. -/
theorem covered_advance (s : ShardedEngine n) (call : Call n) (others : Call n → Prop)
    (hsafe : Safe s call others) (H : s.Covered fun k => k = call ∨ others k) :
    (advance hash s call).2.Covered ((advance hash s call).1.With others) := by
  have hread := fun (i : Fin n) op => Engine.sectionOk_exec (H.shards i) op
  cases call with
  | put o command =>
    exact covered_thenRoutes H (fun _ _ => id) (Engine.sectionOk_put (H.shards _) o command)
  | completeLease o command =>
    exact covered_thenRoutes H (fun _ _ => id)
      (Engine.sectionOk_completeLease (H.shards _) o command)
  | delete ns key =>
    exact covered_thenRoutes H (fun _ _ => id) (Engine.sectionOk_delete (H.shards _) ns key)
  | updateTagRoutes i routes outcome => exact covered_updateTagRoutes hsafe H
  | invalidateTag o ns tag => exact covered_takeRoutes H
  | invalidateShards o ns tag indices removed =>
    cases indices with
    | nil => exact covered_done H fun _ _ h => List.not_mem_nil h.2
    | cons i indices => exact covered_invalidateShards H
  | get ns key =>
    show (s.get hash ns key).2.Covered others
    exact covered_read H (fun _ _ => id) (fun _ h => h) (hread _ (.get ns key) rfl)
  | getRef ns key =>
    show (s.getRef hash ns key id).2.Covered others
    exact covered_read H (fun _ _ => id) (fun _ h => h) (hread _ (.getRef ns key) rfl)
  | getRefWithoutAccessUpdate ns key =>
    show (s.getRefWithoutAccessUpdate hash ns key id).2.Covered others
    exact covered_read H (fun _ _ => id) (fun _ h => h)
      (hread _ (.getRefWithoutAccessUpdate ns key) rfl)
  | startLease ns key leaseTtlMs =>
    show (s.startLease hash ns key leaseTtlMs).2.Covered others
    exact covered_read H (fun _ _ => id) (fun _ h => h)
      (hread _ (.startLease ns key leaseTtlMs) rfl)
  | batchGet ns keys outcomes =>
    cases keys with
    | nil => exact covered_done H fun _ _ => id
    | cons key keys =>
      show (s.get hash ns key).2.Covered fun k => k = .batchGet ns keys _ ∨ others k
      exact covered_read H (fun _ _ => id) (fun _ => .inr) (hread _ (.get ns key) rfl)
  | reclaimShards indices remaining removed =>
    cases indices with
    | nil => exact covered_done H fun _ _ => id
    | cons i indices =>
      simp only [advance]
      split
      · exact covered_done H fun _ _ => id
      · show (s.onShard i fun shard => shard.reclaimExpiredBudget remaining).2.Covered
          fun k => k = .reclaimShards indices _ _ ∨ others k
        exact covered_read H (fun _ _ => id) (fun _ => .inr)
          (hread _ (.reclaimExpiredBudget remaining) rfl)

end Call

/-! ## Runs -/

/-- A sharded engine with its calls in progress. -/
abbrev ConcurrentEngine (n : Nat) := Pool.State (ShardedEngine n) (Call n)

namespace ConcurrentEngine

abbrev Action := Pool.Action Op

/-- A fresh sharded engine that nobody has called yet. -/
def withClockAndLimits (clocks : Fin n → Clock) (limits : EngineLimits) : ConcurrentEngine n :=
  ⟨ShardedEngine.withClockAndLimits clocks limits, ∅⟩

/-- When no call is in progress, every entry is routed, so the next `invalidate_tag` of one of its
tags removes it. -/
def HidesNothing (c : ConcurrentEngine n) : Prop :=
  c.Quiescent → ∀ i id ns tag, (c.shared.shards i).Carries id ⟨ns, tag⟩ →
    c.shared.tagDirectory.Holds ⟨ns, tag⟩ i ∧
      ∀ o, ((c.shared.invalidateTag o ns tag).2.shards i).entries.lookup id = none

theorem quiescent_iff {c : ConcurrentEngine n} : c.Quiescent ↔ c.calls.entries.isEmpty := by
  rw [List.isEmpty_iff]
  exact ⟨fun h => by rw [h]; rfl, fun h => AList.ext h⟩

theorem not_pending {c : ConcurrentEngine n} (h : c.Quiescent) (call : Call n) :
    ¬ c.Pending call := by
  rintro ⟨t, ht⟩
  rw [h] at ht
  simp at ht

variable [NeZero n] (hash : String → Bytes → Nat)

abbrev step : ConcurrentEngine n → Action → Option Outcome × ConcurrentEngine n :=
  Pool.step Call.ofOp (Call.advance hash)

abbrev run (c : ConcurrentEngine n) (actions : List Action) : ConcurrentEngine n :=
  Machine.run (step hash) c actions

/-- The invariant in every state of an interleaving whose sections are safe. -/
theorem covered_run (clocks : Fin n → Clock) (limits : EngineLimits) (actions : List Action)
    (hsafe : ∀ ev ∈ Machine.history (step hash) (withClockAndLimits clocks limits) actions,
      Pool.Allowed Call.Safe ev.before ev.action) :
    ((withClockAndLimits clocks limits).run hash actions).shared.Covered
      ((withClockAndLimits clocks limits).run hash actions).Pending := by
  refine Pool.run_invariant (I := ShardedEngine.Covered) ShardedEngine.Covered.mono
    (Call.covered_advance hash) ?_ hsafe
  have H := ShardedEngine.inv_withClockAndLimits clocks limits
  exact ⟨H.shards, H.limits, fun i id tagId hc => .inl (H.routed i id tagId hc)⟩

/-- **Tag routes hide no entry**, in every interleaving in which no section unroutes a tag from a
shard that holds an entry with it, unless another call in progress still covers the tag there. -/
theorem hidesNothing_of_safe (clocks : Fin n → Clock) (limits : EngineLimits)
    (actions : List Action)
    (hsafe : ∀ ev ∈ Machine.history (step hash) (withClockAndLimits clocks limits) actions,
      Pool.Allowed Call.Safe ev.before ev.action) :
    ((withClockAndLimits clocks limits).run hash actions).HidesNothing := by
  intro hquiescent i id ns tag hc
  have H := (covered_run hash clocks limits actions hsafe).inv (not_pending hquiescent)
  refine ⟨H.routed i id _ hc, fun o => ?_⟩
  exact ((ShardedEngine.invalidateTag_correct H o ns tag).2 i id).1 hc

omit [NeZero n]

/-- Thread `t` is about to route the tag to shard `i`. -/
def adds (c : ConcurrentEngine n) (t : Nat) (i : Fin n) (tagId : TagId) : Bool :=
  match c.calls.lookup t with
  | some (.updateTagRoutes j routes _) => j == i && routes.addTags.contains tagId
  | _ => false

/-- A section of another thread removes only routes that thread `t` is about to add. -/
def removesAdded (c : ConcurrentEngine n) (t : Nat) : Action → Bool
  | .call _ _ => true
  | .advance t' => (c.calls.lookup t').all fun
    | .updateTagRoutes i routes _ => routes.removeTags.all fun tagId => t != t' && c.adds t i tagId
    | _ => true

theorem covers_of_adds {c : ConcurrentEngine n} {t : Nat} {i : Fin n} {tagId : TagId}
    (h : c.adds t i tagId) : ∃ call, c.calls.lookup t = some call ∧ call.Covers i tagId := by
  unfold adds at h
  split at h
  next j routes outcome hcall =>
    rw [Bool.and_eq_true, beq_iff_eq, List.contains_iff_mem] at h
    exact ⟨_, hcall, h⟩
  next => cases h

theorem allowed_of_removesAdded {c : ConcurrentEngine n} {t : Nat} {action : Action}
    (h : c.removesAdded t action) : Pool.Allowed Call.Safe c action := by
  cases action with
  | call => trivial
  | advance t' =>
    intro call hcall
    rw [removesAdded, hcall] at h
    cases call with
    | updateTagRoutes i routes outcome =>
      intro tagId hmem _
      have hadded := List.all_eq_true.mp h tagId hmem
      rw [Bool.and_eq_true, bne_iff_ne] at hadded
      obtain ⟨call', hcall', hcovers⟩ := covers_of_adds hadded.2
      exact .inr ⟨call', ⟨t, hadded.1, hcall'⟩, hcovers⟩
    | _ => trivial

/-- A deletion of one key and a put of another one with the same tag in the same shard. The deletion
removes the route while the put has stored its entry and has still to add the route. -/
def deleteDuringPut : List Action :=
  [.call 0 (.put .asStored (ShardedEngine.taggedPut [1])), .advance 0, .advance 0,
    .call 0 (.delete "app" [1]), .advance 0,
    .call 1 (.put .asStored (ShardedEngine.taggedPut [2])), .advance 1, .advance 0, .advance 1]

/-- The route is gone for a while, and at the end the entry can be invalidated. -/
theorem hidesNothing_delete_during_put :
    (((withClockAndLimits (n := 1) (fun _ => ⟨fun _ => 5, 0⟩) default).run (fun _ _ => 0)
      deleteDuringPut.dropLast).shared.tagDirectory.lookup ⟨"app", "red"⟩).isNone ∧
    ((((withClockAndLimits (n := 1) (fun _ => ⟨fun _ => 5, 0⟩) default).run (fun _ _ => 0)
      deleteDuringPut).shared.invalidateTag .asStored "app" "red").2.shards 0).entries.lookup
        ⟨"app", [2]⟩ = none := by
  have hremoves : (Machine.history (step fun _ _ => 0)
      (withClockAndLimits (n := 1) (fun _ => ⟨fun _ => 5, 0⟩) default) deleteDuringPut).all
        fun ev => removesAdded ev.before 1 ev.action := by
    decide +kernel
  have hhides := hidesNothing_of_safe (n := 1) (fun _ _ => 0) (fun _ => ⟨fun _ => 5, 0⟩) default
    deleteDuringPut fun ev hev => allowed_of_removesAdded (List.all_eq_true.mp hremoves ev hev)
  exact ⟨by decide +kernel, (hhides (quiescent_iff.mpr (by decide +kernel)) 0 ⟨"app", [2]⟩ "app"
    "red" (by decide +kernel)).2 .asStored⟩

/-- A deletion of one key and a put of another one with the same tag in the same shard. The
deletion decides to remove the route before the put and removes it after the put. -/
def deleteAroundPut : List Action :=
  [.call 0 (.put .asStored (ShardedEngine.taggedPut [1])), .advance 0, .advance 0,
    .call 0 (.delete "app" [1]), .advance 0,
    .call 1 (.put .asStored (ShardedEngine.taggedPut [2])), .advance 1, .advance 1,
    .advance 0]

/-- The entry of the put is stored and not routed when both calls have returned. -/
theorem not_hidesNothing_delete_around_put :
    ¬ ((withClockAndLimits (n := 1) (fun _ => ⟨fun _ => 5, 0⟩) default).run (fun _ _ => 0)
      deleteAroundPut).HidesNothing := by
  intro h
  obtain ⟨hroute, -⟩ := h (quiescent_iff.mpr (by decide +kernel)) 0 ⟨"app", [2]⟩ "app" "red"
    (by decide +kernel)
  revert hroute
  decide +kernel

end ConcurrentEngine
end Cachebox
