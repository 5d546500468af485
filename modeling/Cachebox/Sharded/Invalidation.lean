import Cachebox.Sharded.Interleave

/-!
# Concurrent invalidations

`invalidate_tag` first takes the routes of its tag out of the directory and then visits the routed
shards one by one. A second invalidation of the tag that comes in between finds no routes and
returns at once, although entries with the tag are still stored. If no invalidation takes its routes
while another one of the same tag has such entries to remove, then every invalidation in progress
knows all the shards with entries of its tag (`Invalidating.known`), and has removed them all when
it returns.
-/

namespace Cachebox

variable {n : Nat}

namespace Call

/-- The tag that the call invalidates. -/
def target : Call n → Option TagId
  | .invalidateTag _ ns tag | .invalidateShards _ ns tag _ _ => some ⟨ns, tag⟩
  | _ => none

/-- The key that the call gets. -/
def getKey : Call n → Option EntryId
  | .get ns key => some ⟨ns, key⟩
  | _ => none

/-- The call is an `invalidate_tag` or a `get`. -/
def InvalidatesOrGets : Call n → Prop
  | .invalidateTag .. | .invalidateShards .. | .get .. => True
  | _ => False

/-- The section does not take the routes of a tag while another invalidation of the tag has still
to visit a shard that holds an entry with it. -/
def Alone (s : ShardedEngine n) (call : Call n) (others : Call n → Prop) : Prop :=
  match call with
  | .invalidateTag _ ns tag =>
    ∀ o indices removed, others (.invalidateShards o ns tag indices removed) →
      ∀ i ∈ indices, ∀ id, ¬ (s.shards i).Carries id ⟨ns, tag⟩
  | _ => True

end Call

namespace ShardedEngine

variable {s₀ s : ShardedEngine n} {P Q : Call n → Prop}

/-- The records of `s'` are among those of `s`. -/
def RecordsLe (s' s : ShardedEngine n) : Prop :=
  ∀ i id r, (s'.shards i).record id = some r → (s.shards i).record id = some r

theorem RecordsLe.carries {s' : ShardedEngine n} (h : RecordsLe s' s) {i : Fin n} {id : EntryId}
    {tagId : TagId} (hc : (s'.shards i).Carries id tagId) : (s.shards i).Carries id tagId := by
  obtain ⟨r, hr, htag⟩ := Engine.carries_iff_record.mp hc
  exact Engine.carries_iff_record.mpr ⟨r, h i id r hr, htag⟩

theorem recordsLe_onShard {α : Type} {i : Fin n} {body : Engine → α × Engine}
    (H : (s.shards i).Inv) (op : Op) (hexec : ((s.shards i).exec op).2 = (body (s.shards i)).2)
    (hwritten : EngineEvent.written (Machine.event Engine.exec (s.shards i) op) = none) :
    RecordsLe (s.onShard i body).2 s := by
  intro j id r hr
  by_cases hj : j = i
  · subst hj
    simp only [onShard, Function.update_self] at hr
    rw [← hexec] at hr
    rcases Engine.record_exec H op hr with hb | hw
    · exact hb
    · rw [hwritten] at hw
      cases hw
  · simp only [onShard, Function.update_of_ne hj] at hr
    exact hr

/-- The invariant of a run of invalidations and reads that started in `s₀`. -/
structure Invalidating (s₀ s : ShardedEngine n) (P : Call n → Prop) : Prop where
  calls : ∀ call, P call → call.InvalidatesOrGets
  covered : s.Covered P
  /-- An invalidation that has taken its routes still visits every shard with an entry of its
  tag. -/
  known : ∀ o ns tag indices removed, P (.invalidateShards o ns tag indices removed) →
    ∀ i id, (s.shards i).Carries id ⟨ns, tag⟩ → i ∈ indices
  records : RecordsLe s s₀

end ShardedEngine

namespace Call

variable [NeZero n] (hash : String → Bytes → Nat) {s₀ s : ShardedEngine n} {call : Call n}
  {others : Call n → Prop}

theorem recordsLe_advance (H : ∀ i, (s.shards i).Inv) (hcall : call.InvalidatesOrGets) :
    (advance hash s call).2.RecordsLe s := by
  cases call with
  | invalidateTag o ns tag =>
    obtain ⟨indices, -, -, heq⟩ := ShardedEngine.takeRoutes_spec s o ⟨ns, tag⟩
    simp only [advance, heq]
    exact fun _ _ _ h => h
  | invalidateShards o ns tag indices removed =>
    cases indices with
    | nil => exact fun _ _ _ h => h
    | cons i indices =>
      show (s.onShard i fun shard => shard.invalidateTag o ns tag).2.RecordsLe s
      exact ShardedEngine.recordsLe_onShard (H i) (.invalidateTag o ns tag) rfl rfl
  | get ns key =>
    show (s.get hash ns key).2.RecordsLe s
    exact ShardedEngine.recordsLe_onShard (H _) (.get ns key) rfl rfl
  | _ => cases hcall

/-- A section of an invalidation leaves it with all the shards that hold entries of its tag. -/
theorem advance_invalidates {ns tag : String} (halone : Alone s call others)
    (H : s₀.Invalidating s fun k => k = call ∨ others k) (hcall : call.target = some ⟨ns, tag⟩) :
    ∃ o indices removed, (advance hash s call).1 = thenShards o ns tag indices removed ∧
      ∀ i id, ((advance hash s call).2.shards i).Carries id ⟨ns, tag⟩ → i ∈ indices := by
  cases call with
  | invalidateTag o ns' tag' =>
    cases hcall
    obtain ⟨indices, -, hindices, heq⟩ := ShardedEngine.takeRoutes_spec s o ⟨ns, tag⟩
    refine ⟨o, indices, 0, by simp only [advance, heq], fun i id hc => ?_⟩
    simp only [advance, heq] at hc
    rcases H.covered.covered i id _ hc with hroute | ⟨call, rfl | hother, hcovers⟩
    · exact (hindices i).mpr hroute
    · cases hcovers
    -- the entry is not left to another invalidation
    have hkind := H.calls call (.inr hother)
    cases call with
    | invalidateShards o' ns tag indices' removed' =>
      obtain ⟨htag, hmem⟩ := hcovers
      cases htag
      exact absurd hc (halone o' indices' removed' hother i hmem id)
    | updateTagRoutes => cases hkind
    | _ => cases hcovers
  | invalidateShards o ns' tag' indices removed =>
    cases hcall
    have hknown := H.known o ns tag indices removed (.inl rfl)
    cases indices with
    | nil => exact ⟨o, [], removed, rfl, hknown⟩
    | cons i indices =>
      refine ⟨o, indices, _, rfl, fun j id hc => ?_⟩
      have hle := recordsLe_advance hash H.covered.shards (H.calls _ (.inl rfl))
      have hbefore := hknown j id (hle.carries hc)
      refine (List.mem_cons.mp hbefore).resolve_left ?_
      rintro rfl
      refine Engine.not_carries_invalidateTag (H.covered.shards j) o ns tag id ?_
      simpa [advance, ShardedEngine.onShard] using hc
  | _ => cases hcall

/-- Invalidations that are alone, and reads, keep the invariant. -/
theorem invalidating_advance (halone : Alone s call others)
    (H : s₀.Invalidating s fun k => k = call ∨ others k) :
    s₀.Invalidating (advance hash s call).2 ((advance hash s call).1.With others) := by
  have hcall := H.calls call (.inl rfl)
  have hle := recordsLe_advance hash H.covered.shards hcall
  have hsafe : Safe s call others := by
    cases call with
    | updateTagRoutes => cases hcall
    | _ => trivial
  -- what is in progress after the section: the others, and the rest of an invalidation
  have hwith : ∀ k, (advance hash s call).1.With others k → others k ∨
      ∃ o ns tag indices removed, k = .invalidateShards o ns tag indices removed ∧
        ∀ i id, ((advance hash s call).2.shards i).Carries id ⟨ns, tag⟩ → i ∈ indices := by
    intro k hk
    cases htarget : call.target with
    | some tagId =>
      obtain ⟨o, indices, removed, hprogress, hknown⟩ := advance_invalidates hash halone H htarget
      rw [hprogress, thenShards] at hk
      split at hk
      · exact .inl hk
      · rcases hk with rfl | hk
        · exact .inr ⟨o, _, _, indices, removed, rfl, hknown⟩
        · exact .inl hk
    | none =>
      cases call with
      | get => exact .inl hk
      | invalidateTag | invalidateShards => cases htarget
      | _ => cases hcall
  refine ⟨fun k hk => ?_, covered_advance hash s call others hsafe H.covered,
    fun o ns tag indices removed hk i id hc => ?_,
    fun i id r hr => H.records i id r (hle i id r hr)⟩
  · rcases hwith k hk with hother | ⟨o, ns, tag, indices, removed, rfl, -⟩
    · exact H.calls k (.inr hother)
    · trivial
  · rcases hwith _ hk with hother | ⟨o', ns', tag', indices', removed', heq, hknown⟩
    · exact H.known o ns tag indices removed (.inr hother) i id (hle.carries hc)
    · cases heq
      exact hknown i id hc

end Call

/-! ## Runs -/

namespace ConcurrentEngine

abbrev Event (n : Nat) := Machine.Event (ConcurrentEngine n) Action (Option Outcome)

namespace Event

/-- The event starts a call on thread `t`. -/
def Starts (ev : Event n) (t : Nat) (op : Op) : Prop :=
  ev.action = .call t op ∧ ev.before.calls.lookup t = none

/-- The event is the section of a `get(ns, key)` on thread `t`, with its outcome. -/
def Gets (ev : Event n) (t : Nat) (ns : String) (key : Bytes) (outcome : GetOutcome) : Prop :=
  ev.action = .advance t ∧ (ev.before.calls.lookup t).bind Call.getKey = some ⟨ns, key⟩ ∧
    ev.outcome = some (.get outcome)

/-- An `invalidate_tag(ns, tag)` returns. -/
def Returns (ev : Event n) (ns tag : String) : Prop :=
  ∃ t removed, ev.action = .advance t ∧
    (ev.before.calls.lookup t).bind Call.target = some ⟨ns, tag⟩ ∧
    ev.outcome = some (.invalidateTag removed)

end Event

/-- The action does not start a call other than an `invalidate_tag` or a `get`. -/
def InvalidatesOrGets : Action → Prop
  | .call _ (.invalidateTag ..) | .call _ (.get ..) | .advance _ => True
  | _ => False

section
variable [NeZero n] (hash : String → Bytes → Nat) {s₀ : ShardedEngine n} {c : ConcurrentEngine n}
  {action : Action}

/-- What holds of the shards in every interleaving, whatever becomes of the routes. -/
theorem covered_run_any (clocks : Fin n → Clock) (limits : EngineLimits) (actions : List Action) :
    ((withClockAndLimits clocks limits).run hash actions).shared.Covered fun _ => True := by
  have hany : ∀ (i : Fin n) tagId, ∃ call : Call n, True ∧ call.Covers i tagId := fun i tagId =>
    ⟨.updateTagRoutes i ⟨[tagId], []⟩ (.delete false), trivial, rfl, List.mem_singleton_self _⟩
  refine Machine.run_invariant (I := fun c : ConcurrentEngine n => c.shared.Covered fun _ => True)
    (fun c action H => Pool.step_invariant (I := fun (s : ShardedEngine n) _ =>
      s.Covered fun _ => True) (fun _ _ _ => H) (fun t call _ _ => ?_) H) ?_ actions
  · have hsafe : Call.Safe c.shared call fun _ => True := by
      cases call with
      | updateTagRoutes i routes => exact fun tagId _ _ => .inr (hany i tagId)
      | _ => trivial
    have hadvance := Call.covered_advance hash c.shared call (fun _ => True) hsafe
      (H.mono fun _ _ => .inr trivial)
    exact hadvance.mono fun _ _ => trivial
  · have H := ShardedEngine.inv_withClockAndLimits clocks limits
    exact ⟨H.shards, H.limits, fun i _ tagId _ => .inr (hany i tagId)⟩

theorem invalidating_step (hop : InvalidatesOrGets action)
    (halone : Pool.Allowed Call.Alone c action) (H : s₀.Invalidating c.shared c.Pending) :
    s₀.Invalidating (step hash c action).2.shared (step hash c action).2.Pending := by
  refine Pool.step_invariant (I := s₀.Invalidating) (fun t op hcall => ?_)
    (fun t call ht hl => ?_) H
  · subst hcall
    refine ⟨?_, H.covered.mono fun _ => .inr, ?_, H.records⟩
    · rintro k (rfl | hk)
      · cases op with
        | invalidateTag | get => trivial
        | _ => cases hop
      · exact H.calls k hk
    · rintro o ns tag indices removed (heq | hk)
      · cases op <;> cases heq
      · exact H.known o ns tag indices removed hk
  · subst ht
    rw [funext fun k => propext (Pool.pending_iff_of_lookup hl k)] at H
    exact Call.invalidating_advance hash (halone call hl) H

/-- When an invalidation returns, no entry with its tag is left. -/
theorem not_carries_of_returns {ns tag : String} (halone : Pool.Allowed Call.Alone c action)
    (H : s₀.Invalidating c.shared c.Pending)
    (hret : Event.Returns (Machine.event (step hash) c action) ns tag) :
    ∀ i id, ¬ ((step hash c action).2.shared.shards i).Carries id ⟨ns, tag⟩ := by
  obtain ⟨t, removed, haction, hcall, hout⟩ := hret
  cases (show action = .advance t from haction)
  obtain ⟨call, hl, hcall⟩ := Option.bind_eq_some_iff.mp hcall
  have hl : c.calls.lookup t = some call := hl
  rw [funext fun k => propext (Pool.pending_iff_of_lookup hl k)] at H
  obtain ⟨o, indices, removed', hprogress, hknown⟩ :=
    Call.advance_invalidates hash (halone call hl) H hcall
  simp only [Machine.event, step, Pool.step, hl, hprogress, Call.thenShards] at hout ⊢
  intro i id hc
  have hmem := hknown i id hc
  split at hout
  · next hempty =>
    rw [List.isEmpty_iff.mp hempty] at hmem
    cases hmem
  · cases hout

theorem recordsLe_step (hop : InvalidatesOrGets action) (H : s₀.Invalidating c.shared c.Pending) :
    (step hash c action).2.shared.RecordsLe c.shared := by
  cases action with
  | call t op =>
    simp only [step, Pool.step]
    split <;> exact fun _ _ _ h => h
  | advance t =>
    cases hl : c.calls.lookup t with
    | none =>
      simp only [step, Pool.step, hl]
      exact fun _ _ _ h => h
    | some call =>
      simp only [step, Pool.step, hl]
      exact Call.recordsLe_advance hash H.covered.shards (H.calls call ⟨t, hl⟩)

/-- The action is an invalidation or a get, and its section is alone. -/
def Permitted (c : ConcurrentEngine n) (action : Action) : Prop :=
  InvalidatesOrGets action ∧ Pool.Allowed Call.Alone c action

section
variable {c₀ : ConcurrentEngine n} {actions : List Action}

theorem invalidating_run (hstart : c₀.shared.Invalidating c₀.shared c₀.Pending)
    (hok : ∀ ev ∈ Machine.history (step hash) c₀ actions, Permitted ev.before ev.action) :
    c₀.shared.Invalidating (c₀.run hash actions).shared (c₀.run hash actions).Pending :=
  Machine.run_invariant_allowed
    (I := fun c : ConcurrentEngine n => c₀.shared.Invalidating c.shared c.Pending)
    (fun _ _ hok H => invalidating_step hash hok.1 hok.2 H) hstart hok

/-- The entries with a tag are gone from the return of its invalidation on. -/
theorem not_carries_run {ns tag : String}
    (hstart : c₀.shared.Invalidating c₀.shared c₀.Pending)
    (hok : ∀ ev ∈ Machine.history (step hash) c₀ actions, Permitted ev.before ev.action)
    (hret : ∃ ev ∈ Machine.history (step hash) c₀ actions, Event.Returns ev ns tag) :
    ∀ i id, ¬ ((c₀.run hash actions).shared.shards i).Carries id ⟨ns, tag⟩ :=
  Machine.holds_since
    (I := fun c : ConcurrentEngine n => c₀.shared.Invalidating c.shared c.Pending)
    (Q := fun c : ConcurrentEngine n => ∀ i id, ¬ (c.shared.shards i).Carries id ⟨ns, tag⟩)
    (fun _ _ hok H => invalidating_step hash hok.1 hok.2 H)
    (fun _ _ hok H hret => not_carries_of_returns hash hok.2 H hret)
    (fun _ _ hok H hnone i id hc => hnone i id ((recordsLe_step hash hok.1 H).carries hc))
    hstart hok hret

end

theorem outcome_get {t : Nat} {ns : String} {key : Bytes}
    (h : (c.calls.lookup t).bind Call.getKey = some ⟨ns, key⟩) :
    (step hash c (.advance t)).1 = some (.get (c.shared.get hash ns key).1) := by
  obtain ⟨call, hl, hkey⟩ := Option.bind_eq_some_iff.mp h
  cases call with
  | get =>
    cases hkey
    simp only [step, Pool.step, hl]
    rfl
  | _ => cases hkey

/-- Once an `invalidate_tag` has returned, a get that starts afterwards does not return an entry
that had the tag in `c₀`. The events are listed latest first. -/
def InvalidationsTakeEffect (c₀ : ConcurrentEngine n) (actions : List Action) : Prop :=
  ∀ (newest newer between older : List (Event n)) (read start ret : Event n) (t : Nat)
    (ns tag : String) (key : Bytes) (outcome : GetOutcome),
    Machine.history (step hash) c₀ actions =
      newest ++ read :: (newer ++ start :: (between ++ ret :: older)) →
    ret.Returns ns tag → start.Starts t (.get ns key) → read.Gets t ns key outcome →
    (c₀.shared.shards (ShardedEngine.shardIndexFor hash ns key)).Carries ⟨ns, key⟩ ⟨ns, tag⟩ →
    outcome = .miss

/-- **Invalidations take effect before they return**, in every interleaving of invalidations and
gets in which no invalidation takes the routes of its tag while another one of the same tag has
still to visit a shard with an entry that has the tag. -/
theorem invalidationsTakeEffect_of_alone (clocks : Fin n → Clock) (limits : EngineLimits)
    (pre actions : List Action)
    (hquiescent : ((withClockAndLimits clocks limits).run hash pre).Quiescent)
    (hrouted :
      let s := ((withClockAndLimits clocks limits).run hash pre).shared
      ∀ i id tagId, (s.shards i).Carries id tagId → s.tagDirectory.Holds tagId i)
    (hops : ∀ action ∈ actions, InvalidatesOrGets action)
    (halone : ∀ ev ∈ Machine.history (step hash) ((withClockAndLimits clocks limits).run hash pre)
      actions, Pool.Allowed Call.Alone ev.before ev.action) :
    InvalidationsTakeEffect hash ((withClockAndLimits clocks limits).run hash pre) actions := by
  intro newest newer between older read start ret t ns tag key outcome hsplit hret _ hread hc
  generalize hc₀ : (withClockAndLimits clocks limits).run hash pre = c₀ at *
  have hstart : c₀.shared.Invalidating c₀.shared c₀.Pending := by
    have H := covered_run_any hash clocks limits pre
    rw [hc₀] at H
    have hnone := not_pending hquiescent
    exact ⟨fun k hk => absurd hk (hnone k), ⟨H.shards, H.limits, fun i id tagId h =>
      .inl (hrouted i id tagId h)⟩, fun o ns tag indices removed hk => absurd hk (hnone _),
      fun _ _ _ h => h⟩
  obtain ⟨actions', action, -, -, htail, rfl⟩ := Machine.history_split _ hsplit
  have hok : ∀ ev ∈ Machine.history (step hash) c₀ actions', Permitted ev.before ev.action := by
    intro ev hev
    have hmem : ev ∈ Machine.history (step hash) c₀ actions := by
      rw [hsplit, htail]
      exact List.mem_append_right _ (List.mem_cons_of_mem _ hev)
    exact ⟨hops _ (Machine.action_mem _ hmem), halone ev hmem⟩
  have hmem : ret ∈ Machine.history (step hash) c₀ actions' := by
    rw [← htail]
    simp
  have hgone := not_carries_run hash hstart hok ⟨ret, hmem, hret⟩
  have hrecords := (invalidating_run hash hstart hok).records
  obtain ⟨haction, hkey, hout⟩ := hread
  cases (show action = .advance t from haction)
  -- an entry that is still stored has the tags it had at the start
  have habsent : ((c₀.run hash actions').shared.shards
      (ShardedEngine.shardIndexFor hash ns key)).entries.lookup ⟨ns, key⟩ = none := by
    rw [← Engine.record_eq_none_iff, Option.eq_none_iff_forall_ne_some]
    intro r hr
    obtain ⟨r', hr', htag⟩ := Engine.carries_iff_record.mp hc
    cases (hrecords _ _ r hr).symm.trans hr'
    exact hgone _ _ (Engine.carries_iff_record.mpr ⟨r, hr, htag⟩)
  have hmiss : ((c₀.run hash actions').shared.get hash ns key).1 = .miss := by
    rw [ShardedEngine.get, ShardedEngine.onShard, Engine.get_of_absent habsent]
  cases (outcome_get hash hkey).symm.trans hout
  exact hmiss

end

/-- The action is not a section that another call in progress interleaves with. -/
def sole (c : ConcurrentEngine n) : Action → Bool
  | .call _ _ => true
  | .advance t => (c.calls.erase t).entries.isEmpty

theorem allowed_of_sole {c : ConcurrentEngine n} {action : Action} (h : c.sole action) :
    Pool.Allowed Call.Alone c action := by
  cases action with
  | call => trivial
  | advance t =>
    have hempty : (c.calls.erase t).entries = [] := List.isEmpty_iff.mp h
    have hnone : ∀ k, ¬ c.Others t k := by
      rintro k ⟨t', ht, ht'⟩
      have hl : (c.calls.erase t).lookup t' = some k := by
        rw [HashMap.lookup_erase', if_neg ht, ht']
      rw [HashMap.lookup_eq_some_iff_mem, hempty] at hl
      cases hl
    intro call _
    cases call with
    | invalidateTag => exact fun _ _ _ hother => absurd hother (hnone _)
    | _ => trivial

/-- A put of a key with the tag `red`, with both of its sections. -/
def taggedPut : List Action :=
  [.call 0 (.put .asStored (ShardedEngine.taggedPut [1])), .advance 0, .advance 0]

/-- An invalidation that has returned before the key is read. -/
def invalidateThenGet : List Action :=
  [.call 0 (.invalidateTag .asStored "app" "red"), .advance 0, .advance 0, .call 1 (.get "app" [1]),
    .advance 1]

/-- A run without overlapping invalidations, from a state with an entry that has the tag. -/
theorem invalidationsTakeEffect_of_alone_sequential :
    let c₀ := (withClockAndLimits (n := 1) (fun _ => ⟨fun _ => 5, 0⟩) default).run (fun _ _ => 0)
      taggedPut
    (c₀.shared.shards 0).Carries ⟨"app", [1]⟩ ⟨"app", "red"⟩ ∧
      InvalidationsTakeEffect (fun _ _ => 0) c₀ invalidateThenGet := by
  have hremoves : (Machine.history (step fun _ _ => 0)
      (withClockAndLimits (n := 1) (fun _ => ⟨fun _ => 5, 0⟩) default) taggedPut).all
        fun ev => removesAdded ev.before 1 ev.action := by
    decide +kernel
  have hsole : (Machine.history (step fun _ _ => 0)
      ((withClockAndLimits (n := 1) (fun _ => ⟨fun _ => 5, 0⟩) default).run (fun _ _ => 0)
        taggedPut) invalidateThenGet).all fun ev => sole ev.before ev.action := by
    decide +kernel
  have hquiescent : ((withClockAndLimits (n := 1) (fun _ => ⟨fun _ => 5, 0⟩) default).run
      (fun _ _ => 0) taggedPut).Quiescent := quiescent_iff.mpr (by decide +kernel)
  have H := (covered_run (n := 1) (fun _ _ => 0) (fun _ => ⟨fun _ => 5, 0⟩) default taggedPut
    fun ev hev => allowed_of_removesAdded (List.all_eq_true.mp hremoves ev hev)).inv
      (not_pending hquiescent)
  refine ⟨by decide +kernel, invalidationsTakeEffect_of_alone (n := 1) (fun _ _ => 0)
    (fun _ => ⟨fun _ => 5, 0⟩) default taggedPut invalidateThenGet hquiescent H.routed ?_
      fun ev hev => allowed_of_sole (List.all_eq_true.mp hsole ev hev)⟩
  simp [invalidateThenGet, InvalidatesOrGets]

/-- Two invalidations of the same tag: the second one returns before the first one has visited the
shard, and then the key is read. -/
def overlappingInvalidations : List Action :=
  [.call 0 (.invalidateTag .asStored "app" "red"), .advance 0,
    .call 1 (.invalidateTag .asStored "app" "red"), .advance 1, .call 2 (.get "app" [1]),
    .advance 2]

/-- The read after the second invalidation returns the entry. -/
theorem not_invalidationsTakeEffect_overlapping :
    ¬ InvalidationsTakeEffect (fun _ _ => 0) ((withClockAndLimits (n := 1)
      (fun _ => ⟨fun _ => 5, 0⟩) default).run (fun _ _ => 0) taggedPut)
        overlappingInvalidations := by
  intro h
  have hmiss := h [] [] [] _ _ _ _ 2 "app" "red" [1] (.hit [118]) rfl
    ⟨1, 0, rfl, by decide +kernel, by decide +kernel⟩ ⟨rfl, by decide +kernel⟩
    ⟨rfl, by decide +kernel, by decide +kernel⟩ (by decide +kernel)
  cases hmiss

end ConcurrentEngine
end Cachebox
