import Cachebox.Sharded.Routing

/-!
# Failed writes

A put that is refused changes nothing but the clock: the return after the removals is not reached.
A lease completion that is refused may take away the lease of its key, one that is past its expiry
or the one whose token it has presented. The sharded engine recomputes the routes of the old tags
also after a failure, and finds that they are all still needed.
-/

namespace Cachebox
namespace Engine

variable {e e' : Engine} {o : IterOrder}

/-- Everything but the clock is as before. -/
def SameData (e e' : Engine) : Prop := e' = { e with clock := e'.clock }

theorem SameData.tagIndex (h : SameData e e') : e'.tagIndex = e.tagIndex := by rw [h]

theorem sameData_put (H : e.Inv) {command : PutCommand} {error : PutError}
    (h : (e.put o command).1 = .error error) : SameData e (e.put o command).2 := by
  rcases put_cases H o command with ⟨-, heq⟩ | ⟨-, -, heq⟩ | ⟨-, -, _, _, -, -, -, -, -, heq⟩
  · rw [heq]
    rfl
  · rw [heq]
    rfl
  · rw [heq] at h
    cases h

/-- A refused completion leaves everything as it was, or all but the lease of its key. -/
theorem completeLease_error (H : e.Inv) {command : CompleteLeaseCommand}
    {error : CompleteLeaseError} (h : (e.completeLease o command).1 = .error error) :
    (error = .invalidLeaseToken ∧ SameData e (e.completeLease o command).2) ∨
      ∃ lease, e.leases.lookup command.id = some lease ∧
        (error = .invalidLeaseToken ∧ lease.expiresAtMs < e.clock.nowMs ∨
          ∃ cause, error = .put cause) ∧
        SameData (e.dropLease command.id) (e.completeLease o command).2 := by
  cases hl : e.leases.lookup command.id with
  | none =>
    have hnone : e.completeLease o command = (.error .invalidLeaseToken, e) := by
      simp only [completeLease, activeLease, hl, dropLease, HashMap.erase_of_lookup_none hl]
    rw [hnone] at h ⊢
    cases h
    exact .inl ⟨rfl, rfl⟩
  | some lease =>
    rw [completeLease_of_some hl] at h ⊢
    split_ifs at h ⊢ with htime htoken
    · -- the token is right, so the put of the completion has failed
      cases hput : ((e.tick.dropLease command.id).put o command.toPut).1 with
      | ok outcome =>
        rw [Prod.map_fst, hput] at h
        cases h
      | error cause =>
        rw [Prod.map_fst, hput] at h
        cases h
        refine .inr ⟨lease, rfl, .inr ⟨cause, rfl⟩, ?_⟩
        rw [SameData, Prod.map_snd, sameData_put (H.tick.dropLease _) hput]
        rfl
    · cases h
      exact .inl ⟨rfl, rfl⟩
    · cases h
      exact .inr ⟨lease, rfl, .inl ⟨rfl, UInt64.not_le.mp htime⟩, rfl⟩

/-- After a failure that keeps the entries, every old tag still has an entry. -/
theorem writeSection_routes {ε : Type} (H : e.Inv) {ns : String} {key : Bytes}
    {tags : List String} (write : Engine → Except ε PutOutcome × Engine) {error : ε}
    (herror : (write e).1 = .error error) (htagIndex : (write e).2.tagIndex = e.tagIndex) :
    (writeSection ns key tags write e).1.2 = ⟨[], []⟩ := by
  have hneeded : ∀ tagId ∈ e.tagIdsForEntry ns key, (write e).2.hasTagId tagId := by
    intro tagId hmem
    have hsame : (write e).2.hasTagId tagId = e.hasTagId tagId := by
      simp only [hasTagId, htagIndex]
    rw [hsame, hasTagId_iff H]
    exact ⟨⟨ns, key⟩, mem_tagIdsForEntry.mp hmem⟩
  have hnone :
      (e.tagIdsForEntry ns key).filter (fun tagId => !(write e).2.hasTagId tagId) = [] := by
    refine List.filter_eq_nil_iff.mpr fun tagId hmem => ?_
    simp [hneeded tagId hmem]
  simp only [writeSection, herror, hnone]
  rfl

end Engine

namespace ShardedEngine

variable {n : Nat} {s : ShardedEngine n}

theorem updateTagRoutes_nil (s : ShardedEngine n) (i : Fin n) :
    s.updateTagRoutes i ⟨[], []⟩ = s := rfl

/-- The tag directory and every shard but one are as before. -/
structure ChangedAt (i : Fin n) (s s' : ShardedEngine n) : Prop where
  tagDirectory : s'.tagDirectory = s.tagDirectory
  others : ∀ j, j ≠ i → s'.shards j = s.shards j

/-- A section that asks for no routes changes nothing outside its shard. -/
theorem changedAt_section {α : Type} {i : Fin n} {body : Engine → (α × RouteUpdate) × Engine}
    (h : (body (s.shards i)).1.2 = ⟨[], []⟩) :
    ChangedAt i s ((s.onShard i body).2.updateTagRoutes i (s.onShard i body).1.2) := by
  have hroutes : (s.onShard i body).1.2 = ⟨[], []⟩ := h
  rw [hroutes, updateTagRoutes_nil]
  exact ⟨rfl, fun j hj => Function.update_of_ne hj ..⟩

variable [NeZero n] (hash : String → Bytes → Nat)

theorem changedAt_put (H : s.Inv) {o : IterOrder} {command : PutCommand} {error : PutError}
    (h : (s.put hash o command).1 = .error error) :
    ChangedAt (shardIndexFor hash command.ns command.key) s (s.put hash o command).2 := by
  have Hshard := H.shards (shardIndexFor hash command.ns command.key)
  exact changedAt_section (Engine.writeSection_routes Hshard (·.put o command) h
    (Engine.sameData_put Hshard h).tagIndex)

theorem changedAt_completeLease (H : s.Inv) {o : IterOrder} {command : CompleteLeaseCommand}
    {error : CompleteLeaseError} (h : (s.completeLease hash o command).1 = .error error) :
    ChangedAt (shardIndexFor hash command.ns command.key) s (s.completeLease hash o command).2 := by
  have Hshard := H.shards (shardIndexFor hash command.ns command.key)
  refine changedAt_section (Engine.writeSection_routes Hshard (·.completeLease o command) h ?_)
  obtain ⟨-, hsame⟩ | ⟨lease, -, -, hsame⟩ := Engine.completeLease_error Hshard h
  · exact hsame.tagIndex
  · exact hsame.tagIndex

/-- **Failed writes leave the cache intact.** In every reachable state of an engine a refused put
keeps everything but the clock. A completion with an invalid token keeps everything as well, or all
but a lease of its key that is past its expiry; one whose put is refused keeps all but the lease of
its key. In every reachable state of a sharded engine neither failure changes the tag directory or
another shard. -/
theorem failed_writes_keep_state (clock : Clock) (limits : EngineLimits) (ops : List Op)
    (o : IterOrder) :
    let e := (Engine.withClockAndLimits clock limits).run ops
    (∀ command error, (e.put o command).1 = .error error → e.SameData (e.put o command).2) ∧
    (∀ command, (e.completeLease o command).1 = .error .invalidLeaseToken →
      e.SameData (e.completeLease o command).2 ∨
        ∃ lease, e.leases.lookup command.id = some lease ∧ lease.expiresAtMs < e.clock.nowMs ∧
          (e.dropLease command.id).SameData (e.completeLease o command).2) ∧
    (∀ command cause, (e.completeLease o command).1 = .error (.put cause) →
      (e.dropLease command.id).SameData (e.completeLease o command).2) ∧
    ∀ clocks : Fin n → Clock,
      let s := (withClockAndLimits clocks limits).run hash ops
      (∀ command error, (s.put hash o command).1 = .error error →
        ChangedAt (shardIndexFor hash command.ns command.key) s (s.put hash o command).2) ∧
      ∀ command error, (s.completeLease hash o command).1 = .error error →
        ChangedAt (shardIndexFor hash command.ns command.key) s
          (s.completeLease hash o command).2 := by
  intro e
  have H : e.Inv := Engine.inv_run clock limits ops
  refine ⟨fun command error h => Engine.sameData_put H h, fun command h => ?_,
    fun command cause h => ?_, fun clocks => ?_⟩
  · obtain ⟨-, hsame⟩ | ⟨lease, hl, hcause, hsame⟩ := Engine.completeLease_error H h
    · exact .inl hsame
    · obtain ⟨-, hlate⟩ | ⟨cause, hput⟩ := hcause
      · exact .inr ⟨lease, hl, hlate, hsame⟩
      · cases hput
  · obtain ⟨hinvalid, -⟩ | ⟨-, -, -, hsame⟩ := Engine.completeLease_error H h
    · cases hinvalid
    · exact hsame
  · intro s
    have Hs : s.Inv := inv_run hash clocks limits ops
    exact ⟨fun command error h => changedAt_put hash Hs h,
      fun command error h => changedAt_completeLease hash Hs h⟩

omit [NeZero n]

/-- Puts of two entries with a tag, and a lease for another key. -/
def putsAndLease : List Op :=
  [.put .asStored (taggedPut [1]), .put .asStored (taggedPut [1, 2]), .startLease "app" [2] 100]

/-- A completion of the lease with a value of 200 bytes. -/
def largeCompletion (leaseToken : String) : CompleteLeaseCommand :=
  { ns := "app", key := [2], leaseToken, value := List.replicate 200 0, ttl := none,
    staleTtl := none, tags := ["red"], cost := none }

/-- A put of 200 bytes is refused where an entry has its key and its tag, and so is the completion
of a lease with 200 bytes, which takes the lease away. -/
theorem failed_writes_keep_state_putsAndLease :
    let e := (Engine.withClockAndLimits ⟨fun _ => 5, 0⟩ ⟨300, 300⟩).run putsAndLease
    let s : ShardedEngine 2 := (withClockAndLimits (fun _ => ⟨fun _ => 5, 0⟩) ⟨300, 300⟩).run
      (fun _ key => key.length) putsAndLease
    let put := { taggedPut [1] with value := List.replicate 200 0 }
    (e.SameData (e.put .asStored put).2 ∧ e.leases.keys = [⟨"app", [2]⟩] ∧
      (e.dropLease (largeCompletion "lease-2").id).SameData
        (e.completeLease .asStored (largeCompletion "lease-2")).2) ∧
    ChangedAt (shardIndexFor (fun _ key => key.length) put.ns put.key) s
      (s.put (fun _ key => key.length) .asStored put).2 ∧
    ChangedAt (shardIndexFor (fun _ key => key.length) (largeCompletion "lease-1").ns
      (largeCompletion "lease-1").key) s
      (s.completeLease (fun _ key => key.length) .asStored (largeCompletion "lease-1")).2 := by
  intro e s put
  obtain ⟨hput, -, hcompletion, hsharded⟩ := failed_writes_keep_state (n := 2)
    (fun _ key => key.length) ⟨fun _ => 5, 0⟩ ⟨300, 300⟩ putsAndLease .asStored
  obtain ⟨hput', hcompletion'⟩ := hsharded fun _ => ⟨fun _ => 5, 0⟩
  have hlease : e.leases.keys = [⟨"app", [2]⟩] := by decide +kernel
  refine ⟨⟨hput put (.valueTooLargeForMemory 303 300) ?_, hlease,
    hcompletion _ (.valueTooLargeForMemory 303 300) ?_⟩,
    hput' put (.valueTooLargeForMemory 303 150) ?_,
    hcompletion' _ (.put (.valueTooLargeForMemory 303 150)) ?_⟩
  · decide +kernel
  · decide +kernel
  · decide +kernel
  · decide +kernel

end ShardedEngine
end Cachebox
