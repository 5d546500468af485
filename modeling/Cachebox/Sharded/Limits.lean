import Mathlib.Algebra.Order.BigOperators.Group.Finset
import Cachebox.Engine.Safety
import Cachebox.Sharded.Routing

/-!
# Limits of the sharded engine

`limits()` reports the configured limits, but a put is accepted or refused by the shard of its key,
whose memory limit is the shard's share of the configured one, rounded up. The shares together may
exceed the configured limit by what the rounding adds.
-/

namespace Cachebox
namespace ShardedEngine

variable {n : Nat}

theorem limits_invalidateTag (s : ShardedEngine n) (o : IterOrder) (ns tag : String) :
    (s.invalidateTag o ns tag).2.limits = s.limits := by
  obtain ⟨_, -, -, heq⟩ := invalidateTag_spec s o ns tag
  rw [heq]

theorem limits_reclaimShards (indices : List (Fin n)) (remaining : Nat) (s : ShardedEngine n) :
    (reclaimShards indices remaining s).2.limits = s.limits := by
  induction indices generalizing remaining s with
  | nil => rfl
  | cons i indices ih =>
    unfold reclaimShards
    split
    · rfl
    · exact ih _ _

variable [NeZero n] (hash : String → Bytes → Nat)

theorem limits_batchGet (ns : String) (keys : List Bytes) (s : ShardedEngine n) :
    (batchGet hash ns keys s).2.limits = s.limits := by
  induction keys generalizing s with
  | nil => rfl
  | cons key keys ih => exact ih (s.get hash ns key).2

/-- No operation changes the configured limits. -/
theorem limits_exec (s : ShardedEngine n) (op : Op) : (s.exec hash op).2.limits = s.limits := by
  cases op with
  | put | delete | completeLease => exact updateTagRoutes_limits _ _ _
  | get | getRef | getRefWithoutAccessUpdate | startLease => rfl
  | batchGet ns keys => exact limits_batchGet hash ns keys s
  | invalidateTag o ns tag => exact limits_invalidateTag s o ns tag
  | reclaimExpiredBudget maxEntries => exact limits_reclaimShards _ _ s

theorem limits_run (s : ShardedEngine n) (ops : List Op) : (s.run hash ops).limits = s.limits :=
  Machine.run_invariant (I := fun s' : ShardedEngine n => s'.limits = s.limits)
    (fun s' op h => (limits_exec hash s' op).trans h) rfl ops

/-- **Acceptance of puts by the sharded engine.** A put is accepted exactly when its value fits the
configured value limit and its entry fits the shard's share of the memory limit, and it is refused
for no other reason. -/
theorem put_accepted_within_share (clocks : Fin n → Clock) (limits : EngineLimits) (ops : List Op)
    (o : IterOrder) (command : PutCommand) :
    let s := (withClockAndLimits clocks limits).run hash ops
    let share := divCeil limits.maxMemoryBytes n
    let entryBytes := estimateEntryMemory command.id command.value command.tags
    s.limits = limits ∧
      ((∃ outcome, (s.put hash o command).1 = .ok outcome) ↔
        command.value.length ≤ limits.maxValueBytes ∧ entryBytes ≤ share) ∧
      (∀ valueBytes maxBytes,
        (s.put hash o command).1 = .error (.valueTooLarge valueBytes maxBytes) →
          limits.maxValueBytes < command.value.length) ∧
      (∀ bytes maxBytes,
        (s.put hash o command).1 = .error (.valueTooLargeForMemory bytes maxBytes) →
          share < entryBytes) ∧
      ∀ required used maxBytes,
        (s.put hash o command).1 ≠ .error (.insufficientMemory required used maxBytes) := by
  intro s share entryBytes
  have hlimits : s.limits = limits := limits_run hash _ ops
  have H : s.Inv := inv_run hash clocks limits ops
  let shard := s.shards (shardIndexFor hash command.ns command.key)
  have hshard : shard.limits = limits.forShard n := by
    rw [← hlimits]
    exact H.limits _
  have hinv : shard.Inv := H.shards _
  -- the answer is the answer of the shard
  have hresult : (s.put hash o command).1 = (shard.put o command).1 := rfl
  have haccepted := Engine.put_isOk_iff hinv o command
  have hrefused := @Engine.put_error shard hinv o command
  rw [hshard] at haccepted hrefused
  rw [hresult]
  refine ⟨hlimits, haccepted, ?_, ?_, Engine.put_ne_insufficientMemory hinv o command⟩
  · intro valueBytes maxBytes h
    obtain ⟨-, hvalue⟩ | ⟨herror, -⟩ := hrefused h
    · exact hvalue
    · cases herror
  · intro bytes maxBytes h
    obtain ⟨herror, -⟩ | ⟨-, hsize⟩ := hrefused h
    · cases herror
    · exact hsize

omit [NeZero n]

/-- A put of 200 bytes, whose entry takes 299 bytes. -/
def largePut : PutCommand :=
  { ns := "a", key := [1, 2], value := List.replicate 200 0, ttl := none, staleTtl := none
    tags := [], cost := none }

/-- With a memory limit of 600 bytes each of two shards accepts an entry of 299 bytes. -/
theorem put_accepted_within_share_two_shards :
    (∃ outcome, ((withClockAndLimits (n := 2) (fun _ => ⟨fun _ => 5, 0⟩) ⟨600, 200⟩).put
      (fun _ key => key.length) .asStored largePut).1 = .ok outcome) :=
  (put_accepted_within_share (n := 2) (fun _ key => key.length) (fun _ => ⟨fun _ => 5, 0⟩)
    ⟨600, 200⟩ [] .asStored largePut).2.1.mpr (by decide +kernel)

/-- An entry of 299 bytes is within the configured limits of 400 bytes of memory and 200 bytes of
value, and is refused by an empty sharded engine with two shards. -/
theorem put_refused_within_limits :
    let limits : EngineLimits := ⟨400, 200⟩
    let s := withClockAndLimits (n := 2) (fun _ => ⟨fun _ => 5, 0⟩) limits
    largePut.value.length ≤ s.limits.maxValueBytes ∧
      estimateEntryMemory largePut.id largePut.value largePut.tags ≤ s.limits.maxMemoryBytes ∧
      (s.put (fun _ key => key.length) .asStored largePut).1 =
        .error (.valueTooLargeForMemory 299 200) := by
  decide +kernel

/-! ## The charged memory of all shards -/

/-- Rounding up adds less than the number of shards. -/
theorem mul_divCeil_lt (a : Nat) {b : Nat} (hb : 0 < b) : b * divCeil a b < a + b := by
  have hdiv := Nat.div_add_mod a b
  have hmod := Nat.mod_lt a hb
  unfold divCeil
  split
  · omega
  · rw [Nat.mul_add, Nat.mul_one]
    omega

theorem mul_divCeil_of_dvd {a b : Nat} (h : b ∣ a) : b * divCeil a b = a := by
  rw [divCeil, if_pos (Nat.mod_eq_zero_of_dvd h), Nat.mul_div_cancel' h]

/-- The shards together are charged no more than their shares. -/
theorem Inv.memoryUsedBytes_le {s : ShardedEngine n} (H : s.Inv) :
    s.memoryUsedBytes ≤ n * divCeil s.limits.maxMemoryBytes n := by
  have hshard : ∀ i ∈ Finset.univ,
      (s.shards i).memoryUsedBytes ≤ divCeil s.limits.maxMemoryBytes n := by
    intro i _
    have hcapped := (H.shards i).capped
    rw [H.limits] at hcapped
    exact hcapped
  have hsum := Finset.sum_le_card_nsmul Finset.univ _ _ hshard
  rwa [Finset.card_fin, smul_eq_mul, Fin.sum_univ_def] at hsum

/-- **The charged memory of the sharded engine** is at most the sum of the shares of its shards. It
exceeds the limit that `limits()` reports by less than the number of shards, and not at all if that
number divides the limit. -/
theorem memory_within_shares [NeZero n] (hash : String → Bytes → Nat) (clocks : Fin n → Clock)
    (limits : EngineLimits) (ops : List Op) :
    let s := (withClockAndLimits clocks limits).run hash ops
    s.memoryUsedBytes ≤ n * divCeil s.limits.maxMemoryBytes n ∧
      s.memoryUsedBytes < s.limits.maxMemoryBytes + n ∧
      (n ∣ s.limits.maxMemoryBytes → s.memoryUsedBytes ≤ s.limits.maxMemoryBytes) := by
  intro s
  have H : s.Inv := inv_run hash clocks limits ops
  have hle := H.memoryUsedBytes_le
  refine ⟨hle, Nat.lt_of_le_of_lt hle (mul_divCeil_lt _ (NeZero.pos n)), fun hdvd => ?_⟩
  rwa [mul_divCeil_of_dvd hdvd] at hle

/-- Two entries of 104 bytes, one in each of two shards. -/
def entryInEachShard : List Op :=
  [.put .asStored (taggedPut [0]), .put .asStored (taggedPut [1])]

/-- The hash of a key is its first byte. -/
def firstByte (_ : String) (key : Bytes) : Nat := (key.headD 0).toNat

/-- With a limit of 208 bytes the two entries take up just that. -/
theorem memory_within_shares_entryInEachShard :
    let s := (withClockAndLimits (n := 2) (fun _ => ⟨fun _ => 5, 0⟩) ⟨208, 100⟩).run firstByte
      entryInEachShard
    2 ∣ s.limits.maxMemoryBytes ∧ s.memoryUsedBytes ≤ s.limits.maxMemoryBytes := by
  intro s
  have hlimits : s.limits = ⟨208, 100⟩ := limits_run firstByte _ entryInEachShard
  have hdvd : 2 ∣ s.limits.maxMemoryBytes := by
    rw [hlimits]
    decide
  exact ⟨hdvd, (memory_within_shares (n := 2) firstByte (fun _ => ⟨fun _ => 5, 0⟩) ⟨208, 100⟩
    entryInEachShard).2.2 hdvd⟩

/-- With a limit of 207 bytes each of two shards may take up 104, and the two entries exceed the
limit. -/
theorem not_memory_within_limit :
    let s := (withClockAndLimits (n := 2) (fun _ => ⟨fun _ => 5, 0⟩) ⟨207, 100⟩).run firstByte
      entryInEachShard
    s.limits.maxMemoryBytes = 207 ∧ s.memoryUsedBytes = 208 := by
  decide +kernel

end ShardedEngine
end Cachebox
