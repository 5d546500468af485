import Cachebox.Engine.Recency
import Cachebox.Sharded.Limits

/-!
# The cost totals

The total of an engine follows its entries by saturating additions and subtractions. It is the sum
of the stored costs as long as that sum fits into 64 bits. Once a put has saturated the total, the
next removal subtracts from the largest word, and the total stays too low. The sharded engine adds
up the totals of its shards without saturation.
-/

namespace Cachebox

def Mutation.IsStore : Mutation → Prop
  | .store _ _ => True
  | _ => False

theorem Mutation.IsStore.counts {m : Mutation} (h : m.IsStore) : m.Counts := by
  cases m with
  | store => trivial
  | _ => exact h.elim

namespace Engine

variable {e e' : Engine} {id : EntryId} {entry : Entry}

/-- The sum of the costs of the stored entries. -/
def costSum (e : Engine) : Nat := HashMap.sumBy (fun _ entry => (entry.cost.getD 0).toNat) e.entries

/-- The total is the sum of the stored costs. -/
def CostExact (e : Engine) : Prop := e.costScoreTotal.toNat = e.costSum

/-- The total is the sum of the stored costs, or the largest word if that does not fit. -/
def CostCapped (e : Engine) : Prop := e.costScoreTotal.toNat = min e.costSum UInt64.maxNat

theorem CostExact.capped (h : e.CostExact) : e.CostCapped := by
  have hle := e.costScoreTotal.toNat_le_maxNat
  rw [CostExact] at h
  rw [CostCapped]
  omega

theorem CostCapped.exact (h : e.CostCapped) (hsum : e.costSum ≤ UInt64.maxNat) : e.CostExact :=
  h.trans (Nat.min_eq_left hsum)

/-! ## What a mutation does to the total -/

theorem costSum_recordAccess (e : Engine) (id : EntryId) :
    (e.recordAccess id).costSum = e.costSum := by
  unfold recordAccess
  split
  · rfl
  · next entry hl =>
    rw [costSum, costSum, HashMap.sumBy_of_lookup hl]
    exact HashMap.sumBy_insert _ _ _ _

theorem CostExact.removeEntry (h : e.CostExact) (id : EntryId) :
    (e.removeEntry id).2.CostExact := by
  cases hl : e.entries.lookup id with
  | none =>
    rw [removeEntry_of_none hl]
    exact h
  | some entry =>
    have hsum : e.costSum = (entry.cost.getD 0).toNat + (e.removeEntry id).2.costSum := by
      rw [costSum, costSum, removeEntry_entries]
      exact HashMap.sumBy_of_lookup hl
    have htotal : (e.removeEntry id).2.costScoreTotal =
        e.costScoreTotal.saturatingSub (entry.cost.getD 0) := by
      simp only [Engine.removeEntry, hl]
    rw [CostExact] at h ⊢
    rw [htotal, UInt64.toNat_saturatingSub]
    omega

theorem CostExact.apply (h : e.CostExact) {m : Mutation} (hm : ¬ m.IsStore) :
    (m.apply e).CostExact := by
  cases m with
  | store => exact absurd trivial hm
  | remove id => exact h.removeEntry id
  | access id =>
    have htotal : (e.recordAccess id).costScoreTotal = e.costScoreTotal := by
      unfold Engine.recordAccess
      split <;> rfl
    rw [Mutation.apply, CostExact, htotal, costSum_recordAccess]
    exact h
  | tick | dropLease | grantLease | setExpiryIndex | hideTag | setStats => exact h

theorem CostExact.does (h : e.CostExact) (hdoes : Does (¬ ·.IsStore) e e') : e'.CostExact := by
  induction hdoes with
  | refl => exact h
  | step _ hm ih => exact ih.apply hm

/-- An entry that is stored saturates the total if its cost does not fit. -/
theorem CostExact.storeEntry (h : e.CostExact) (hnone : e.entries.lookup id = none) :
    (e.storeEntry id entry).CostCapped := by
  have hsum : (e.storeEntry id entry).costSum = (entry.cost.getD 0).toNat + e.costSum := by
    simp only [costSum, Engine.storeEntry, HashMap.sumBy_insert,
      HashMap.erase_of_lookup_none hnone]
  have htotal : (e.storeEntry id entry).costScoreTotal =
      e.costScoreTotal.saturatingAdd (entry.cost.getD 0) := rfl
  rw [CostExact] at h
  rw [CostCapped, htotal, hsum, UInt64.toNat_saturatingAdd, h, Nat.add_comm]

/-! ## What an operation does to the total -/

/-- An operation that does not write stores nothing. -/
theorem does_of_not_writes {op : Op} (h : ∀ id, ¬ op.Writes id) (e : Engine) :
    Does (¬ ·.IsStore) e (e.exec op).2 := by
  refine (exec_does e op).mono fun m hm hstore => ?_
  cases m with
  | store id entry => exact h id hm
  | _ => exact hstore

/-- An accepted put stores its entry as the last thing it does. -/
theorem put_stores_last (H : e.Inv) {o : IterOrder} {command : PutCommand} {outcome : PutOutcome}
    (h : (e.put o command).1 = .ok outcome) :
    ∃ room entry, Does (¬ ·.IsStore) e room ∧ room.entries.lookup command.id = none ∧
      (e.put o command).2 = room.storeEntry command.id entry := by
  obtain ⟨room, hdoes, hnone, heq⟩ := put_ok_does H h
  exact ⟨room, _, hdoes.mono fun _ hm hstore => hm hstore.counts, hnone, heq⟩

/-- An operation stores at most one entry, as the last thing it does. -/
theorem exec_stores_last (H : e.Inv) (op : Op) :
    Does (¬ ·.IsStore) e (e.exec op).2 ∨
      ∃ room id entry, Does (¬ ·.IsStore) e room ∧ room.entries.lookup id = none ∧
        (e.exec op).2 = room.storeEntry id entry := by
  cases op with
  | put o command =>
    cases hresult : (e.put o command).1 with
    | error error =>
      refine .inl ((does_put_error H hresult).mono ?_)
      rintro _ rfl
      nofun
    | ok outcome =>
      obtain ⟨room, entry, hdoes, hnone, heq⟩ := put_stores_last H hresult
      exact .inr ⟨room, command.id, entry, hdoes, hnone, heq⟩
  | completeLease o command =>
    cases hresult : (e.completeLease o command).1 with
    | error error =>
      refine .inl ((does_completeLease_error H hresult).mono ?_)
      rintro _ (rfl | rfl) <;> nofun
    | ok outcome =>
      have hput := completeLease_ok hresult
      obtain ⟨room, entry, hdoes, hnone, heq⟩ :=
        put_stores_last (H.tick.dropLease command.id) (congrArg Prod.fst hput)
      have hdrop : Does (¬ ·.IsStore) e (e.tick.dropLease command.id) :=
        (Does.single (m := .tick) nofun).step (m := .dropLease command.id) nofun
      rw [hput] at heq
      exact .inr ⟨room, command.id, entry, hdrop.trans hdoes, hnone, heq⟩
  | get | getRef | getRefWithoutAccessUpdate | batchGet | delete | invalidateTag | startLease
  | reclaimExpiredBudget =>
    refine .inl (does_of_not_writes ?_ e)
    exact fun _ => nofun

theorem CostExact.exec (H : e.Inv) (h : e.CostExact) (op : Op) : (e.exec op).2.CostCapped := by
  rcases exec_stores_last H op with hdoes | ⟨room, id, entry, hdoes, hnone, heq⟩
  · exact (h.does hdoes).capped
  · rw [heq]
    exact (h.does hdoes).storeEntry hnone

theorem costCapped_run (clock : Clock) (limits : EngineLimits) (ops : List Op)
    (hsum : ∀ ev ∈ Machine.history Engine.exec (withClockAndLimits clock limits) ops,
      ev.before.costSum ≤ UInt64.maxNat) :
    ((withClockAndLimits clock limits).run ops).CostCapped :=
  (Machine.run_invariant_allowed (I := fun e : Engine => e.Inv ∧ e.CostCapped)
    (fun _ op hle h => ⟨h.1.exec op, CostExact.exec h.1 (h.2.exact hle) op⟩)
    ⟨inv_withClockAndLimits clock limits, rfl⟩ hsum).2

end Engine

namespace ShardedEngine

variable {n : Nat} {s : ShardedEngine n}

/-- `ShardedEngine::cost_score_total`, which adds up the totals of the shards. There is no result if
an addition overflows: a debug build then panics, and a release build returns a wrapped sum. -/
def costScoreTotal (s : ShardedEngine n) : Option UInt64 :=
  UInt64.checkedSum ((List.finRange n).map fun i => (s.shards i).costScoreTotal)

/-- The sum of the costs of the entries in all shards. -/
def costSum (s : ShardedEngine n) : Nat := ∑ i, (s.shards i).costSum

variable [NeZero n] (hash : String → Bytes → Nat)

theorem costCapped_exec (H : s.Inv) (h : AllShards Engine.CostExact s) (op : Op) :
    AllShards Engine.CostCapped (s.exec hash op).2 := by
  have hcapped : AllShards Engine.CostCapped s := fun i => (h i).capped
  have hkept : (∀ part, Parts op part → ∀ id, ¬ part.Writes id) →
      AllShards Engine.CostCapped (s.exec hash op).2 := by
    intro hparts i
    refine Engine.CostExact.capped (AllShards.exec hash op (fun e part hpart he => ?_) h i)
    exact he.does (Engine.does_of_not_writes (hparts part hpart) e)
  cases op with
  | put o command =>
    exact hcapped.section _ (Engine.putSection o command)
      (Engine.CostExact.exec (H.shards _) (h _) (.put o command))
  | completeLease o command =>
    exact hcapped.section _ (Engine.completeLeaseSection o command)
      (Engine.CostExact.exec (H.shards _) (h _) (.completeLease o command))
  | batchGet ns keys =>
    refine hkept ?_
    rintro _ ⟨key, -, rfl⟩
    exact fun _ => nofun
  | reclaimExpiredBudget maxEntries =>
    refine hkept ?_
    rintro _ ⟨k, rfl⟩
    exact fun _ => nofun
  | get | getRef | getRefWithoutAccessUpdate | delete | invalidateTag | startLease =>
    refine hkept ?_
    rintro _ rfl
    exact fun _ => nofun

theorem costCapped_run (clocks : Fin n → Clock) (limits : EngineLimits) (ops : List Op)
    (hsum : ∀ ev ∈ Machine.history (exec hash) (withClockAndLimits clocks limits) ops,
      ∀ i, (ev.before.shards i).costSum ≤ UInt64.maxNat) :
    AllShards Engine.CostCapped ((withClockAndLimits clocks limits).run hash ops) :=
  (Machine.run_invariant_allowed
    (I := fun s : ShardedEngine n => s.Inv ∧ AllShards Engine.CostCapped s)
    (fun s op (hle : ∀ i, (s.shards i).costSum ≤ UInt64.maxNat) h =>
      ⟨h.1.exec hash op, costCapped_exec hash h.1 (fun i => (h.2 i).exact (hle i)) op⟩)
    ⟨inv_withClockAndLimits clocks limits, fun _ => rfl⟩ hsum).2

omit [NeZero n]

/-- If the capped sums of the shards fit together, they make up the capped sum. -/
theorem sum_min_eq {f : Fin n → Nat} {m : Nat} (h : ∑ i, min (f i) m ≤ m) :
    ∑ i, min (f i) m = min (∑ i, f i) m := by
  by_cases hfits : ∀ i, f i ≤ m
  · have heq : ∑ i, min (f i) m = ∑ i, f i :=
      Finset.sum_congr rfl fun i _ => Nat.min_eq_left (hfits i)
    rw [heq] at h ⊢
    exact (Nat.min_eq_left h).symm
  · obtain ⟨i, hi⟩ := not_forall.mp hfits
    have hover : m ≤ f i := (Nat.not_le.mp hi).le
    have hcapped : m ≤ ∑ i, min (f i) m := by
      have hle := Finset.single_le_sum (f := fun i => min (f i) m) (fun _ _ => Nat.zero_le _)
        (Finset.mem_univ i)
      rwa [Nat.min_eq_right hover] at hle
    have hsum : f i ≤ ∑ i, f i :=
      Finset.single_le_sum (fun _ _ => Nat.zero_le _) (Finset.mem_univ i)
    rw [Nat.min_eq_right (hover.trans hsum)]
    exact Nat.le_antisymm h hcapped

/-- The totals of the shards add up to the capped sum exactly if they are added up without
overflow. -/
theorem costScoreTotal_iff (h : AllShards Engine.CostCapped s) :
    (∃ total, s.costScoreTotal = some total ∧ total.toNat = min s.costSum UInt64.maxNat) ↔
      ∑ i, min (s.shards i).costSum UInt64.maxNat ≤ UInt64.maxNat := by
  have hsum : (((List.finRange n).map fun i => (s.shards i).costScoreTotal).map
      UInt64.toNat).sum = ∑ i, min (s.shards i).costSum UInt64.maxNat := by
    rw [List.map_map, Fin.sum_univ_def]
    exact congrArg List.sum (List.map_congr_left fun i _ => h i)
  rw [costScoreTotal, UInt64.checkedSum_eq, hsum]
  constructor
  · rintro ⟨total, htotal, -⟩
    split at htotal
    · assumption
    · cases htotal
  · intro hle
    refine ⟨_, if_pos hle, ?_⟩
    rw [UInt64.toNat_ofNat_of_le hle]
    exact sum_min_eq hle

/-- **The cost totals are exact up to the first overflow.** If the stored costs fit into 64 bits
before each step, the total of an engine is their sum after the run, capped at the largest word. If
they fit in every shard, so is the total of each shard; and the sharded engine returns the sum over
all shards, capped, exactly if it can add up the totals of the shards. -/
theorem cost_totals_exact [NeZero n] (hash : String → Bytes → Nat) (clock : Clock)
    (clocks : Fin n → Clock) (limits : EngineLimits) (ops : List Op) :
    let e₀ := Engine.withClockAndLimits clock limits
    let s₀ := withClockAndLimits clocks limits
    let s := s₀.run hash ops
    ((∀ ev ∈ Machine.history Engine.exec e₀ ops, ev.before.costSum ≤ UInt64.maxNat) →
      (e₀.run ops).costScoreTotal.toNat = min (e₀.run ops).costSum UInt64.maxNat) ∧
    ((∀ ev ∈ Machine.history (exec hash) s₀ ops,
        ∀ i, (ev.before.shards i).costSum ≤ UInt64.maxNat) →
      (∀ i, (s.shards i).costScoreTotal.toNat = min (s.shards i).costSum UInt64.maxNat) ∧
      ((∃ total, s.costScoreTotal = some total ∧ total.toNat = min s.costSum UInt64.maxNat) ↔
        ∑ i, min (s.shards i).costSum UInt64.maxNat ≤ UInt64.maxNat)) := by
  intro e₀ s₀ s
  refine ⟨Engine.costCapped_run clock limits ops, fun hsum => ?_⟩
  have hcapped := costCapped_run hash clocks limits ops hsum
  exact ⟨hcapped, costScoreTotal_iff hcapped⟩

/-- A put of a small entry with the given cost. -/
def costPut (key : Bytes) (cost : UInt64) : PutCommand :=
  { ns := "app", key := key, value := [], ttl := none, staleTtl := none, tags := []
    cost := some cost }

/-- Two puts with the given costs. -/
def costPuts (cost cost' : UInt64) : List Op :=
  [.put .asStored (costPut [0] cost), .put .asStored (costPut [1] cost')]

/-- Two small costs are added up by an engine and by two shards. -/
theorem cost_totals_exact_costPuts :
    let e := (Engine.withClockAndLimits ⟨fun _ => 5, 0⟩ default).run (costPuts 3 5)
    let s := (withClockAndLimits (n := 2) (fun _ => ⟨fun _ => 5, 0⟩) default).run firstByte
      (costPuts 3 5)
    e.costScoreTotal.toNat = min e.costSum UInt64.maxNat ∧
      ∃ total, s.costScoreTotal = some total ∧ total.toNat = min s.costSum UInt64.maxNat := by
  intro e s
  have hexact := cost_totals_exact (n := 2) firstByte ⟨fun _ => 5, 0⟩ (fun _ => ⟨fun _ => 5, 0⟩)
    default (costPuts 3 5)
  exact ⟨hexact.1 (by decide +kernel), (hexact.2 (by decide +kernel)).2.mpr (by decide +kernel)⟩

/-- An entry with the largest cost and one of cost 5 saturate the total. When the first one is
deleted, the total is 0, and an entry of cost 5 is stored. With the two entries in two shards, the
totals cannot be added up. -/
theorem not_cost_totals_exact :
    let e := (Engine.withClockAndLimits ⟨fun _ => 5, 0⟩ default).run
      (costPuts 0xffffffffffffffff 5 ++ [.delete "app" [0]])
    let s := (withClockAndLimits (n := 2) (fun _ => ⟨fun _ => 5, 0⟩) default).run firstByte
      (costPuts 0xffffffffffffffff 5)
    e.costScoreTotal = 0 ∧ e.costSum = 5 ∧ s.costScoreTotal = none := by
  decide +kernel

end ShardedEngine
end Cachebox
