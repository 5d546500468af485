import Mathlib.Data.List.Sort
import Cachebox.Engine.Alike
import Cachebox.Sharded.Limits

/-!
# Cleanup on a budget

`reclaim_expired_budget` removes the first entries in the order of the expiry index, as many as the
budget allows and as are due. The sharded engine hands what is left of the budget from shard to
shard, so with one time for all shards it is the budget of all shards together, and repeated calls
leave nothing that is due.
-/

namespace Cachebox

/-- From now on every reading of the clock is `nowMs`. -/
def Clock.StandsAt (c : Clock) (nowMs : UInt64) : Prop := ∀ i, c.reads ≤ i → c.readings i = nowMs

namespace Engine

variable {e e' : Engine} {nowMs : UInt64} {key : ExpiryKey} {count : Nat}

/-- The place of an entry in the order of the expiry index, if it is removable at `nowMs`. -/
def dueKey (nowMs : UInt64) (p : Sigma fun _ : EntryId => Entry) : Option ExpiryKey :=
  match removableAtMs p.2.expiresAtMs p.2.staleUntilMs with
  | some removableAt => if removableAt ≤ nowMs then some ⟨removableAt, p.1⟩ else none
  | none => none

/-- The entries that are removable at `nowMs`, by removable time, namespace and key. -/
def dueKeys (e : Engine) (nowMs : UInt64) : List ExpiryKey :=
  (e.entries.entries.filterMap (dueKey nowMs)).insertionSort (· ≤ ·)

theorem dueKey_eq_some_iff {p : Sigma fun _ : EntryId => Entry} :
    dueKey nowMs p = some key ↔
      p.1 = key.id ∧ removableAtMs p.2.expiresAtMs p.2.staleUntilMs = some key.expiresAtMs ∧
        key.expiresAtMs ≤ nowMs := by
  obtain ⟨id, entry⟩ := p
  obtain ⟨t, id'⟩ := key
  unfold dueKey
  split
  · next t' ht =>
    split
    · simp only [Option.some.injEq, ExpiryKey.mk.injEq, ht]
      constructor
      · rintro ⟨rfl, rfl⟩
        exact ⟨rfl, rfl, by assumption⟩
      · rintro ⟨rfl, rfl, -⟩
        exact ⟨rfl, rfl⟩
    · next hlate =>
      simp only [reduceCtorEq, false_iff, ht, Option.some.injEq]
      rintro ⟨-, rfl, hle⟩
      exact hlate hle
  · next ht => simp [ht]

theorem mem_dueKeys : key ∈ e.dueKeys nowMs ↔ e.Due key ∧ key.expiresAtMs ≤ nowMs := by
  simp only [dueKeys, List.mem_insertionSort, List.mem_filterMap, dueKey_eq_some_iff, Due]
  constructor
  · rintro ⟨⟨id, entry⟩, hmem, rfl, ht, hle⟩
    exact ⟨⟨entry, HashMap.lookup_eq_some_iff_mem.mpr hmem, ht⟩, hle⟩
  · rintro ⟨⟨entry, hl, ht⟩, hle⟩
    exact ⟨⟨key.id, entry⟩, HashMap.lookup_eq_some_iff_mem.mp hl, rfl, ht, hle⟩

theorem dueKeys_ids_nodup (e : Engine) (nowMs : UInt64) :
    ((e.dueKeys nowMs).map (·.id)).Nodup := by
  have hsublist : ∀ l : List (Sigma fun _ : EntryId => Entry),
      ((l.filterMap (dueKey nowMs)).map (·.id)).Sublist l.keys := by
    intro l
    induction l with
    | nil => exact .refl _
    | cons p l ih =>
      cases hp : dueKey nowMs p with
      | none =>
        rw [List.filterMap_cons_none hp]
        exact ih.cons _
      | some key =>
        rw [List.filterMap_cons_some hp, List.map_cons, ← (dueKey_eq_some_iff.mp hp).1]
        exact ih.cons_cons _
  refine ((List.perm_insertionSort _ _).map _).nodup_iff.mpr ?_
  exact e.entries.keys_nodup.sublist (hsublist _)

theorem dueKeys_sorted (e : Engine) (nowMs : UInt64) : (e.dueKeys nowMs).Pairwise (· < ·) :=
  (List.Pairwise.and (List.pairwise_insertionSort (· ≤ ·) _)
    (e.dueKeys_ids_nodup nowMs).of_map).imp fun h => lt_of_le_of_ne h.1 h.2

/-! ## One engine -/

/-- The first of the keys is the first one of those that are due. -/
theorem due_of_first {keys : List ExpiryKey} {index : Finset ExpiryKey}
    (hsorted : keys.Pairwise (· < ·))
    (hkeys : ∀ key, key ∈ keys ↔ key ∈ index ∧ key.expiresAtMs ≤ nowMs)
    (hfirst : index.first = some key) (hdue : key.expiresAtMs ≤ nowMs) :
    ∃ rest, keys = key :: rest ∧
      ∀ key', key' ∈ rest ↔ key' ∈ index.erase key ∧ key'.expiresAtMs ≤ nowMs := by
  obtain ⟨hmem, hleast⟩ := Finset.first_eq_some_iff.mp hfirst
  cases keys with
  | nil => exact absurd ((hkeys key).mpr ⟨hmem, hdue⟩) List.not_mem_nil
  | cons head rest =>
    obtain ⟨hhead, -⟩ := List.pairwise_cons.mp hsorted
    have hge : key ≤ head := hleast head ((hkeys head).mp List.mem_cons_self).1
    have hkey : key = head := by
      rcases List.mem_cons.mp ((hkeys key).mpr ⟨hmem, hdue⟩) with heq | hrest
      · exact heq
      · exact absurd (hhead key hrest) (not_lt.mpr hge)
    subst hkey
    refine ⟨rest, rfl, fun key' => ?_⟩
    rw [Finset.mem_erase, and_assoc, ← hkeys, List.mem_cons]
    constructor
    · exact fun hrest => ⟨(hhead key' hrest).ne', .inr hrest⟩
    · exact fun ⟨hne, hor⟩ => hor.resolve_left hne

/-- The first loop of `remove_expired` pops the due keys in their order. -/
theorem popExpired_eq {keys : List ExpiryKey} {index : Finset ExpiryKey}
    (hsorted : keys.Pairwise (· < ·))
    (hkeys : ∀ key, key ∈ keys ↔ key ∈ index ∧ key.expiresAtMs ≤ nowMs) (maxEntries : Nat)
    (expired : List EntryId) :
    (popExpired maxEntries nowMs index expired).1 =
      expired ++ (keys.take (maxEntries - expired.length)).map (·.id) := by
  fun_induction popExpired maxEntries nowMs index expired generalizing keys with
  | case1 index expired _ hfirst =>
    rw [Finset.first_eq_none_iff] at hfirst
    have hnil : keys = [] := List.eq_nil_iff_forall_not_mem.mpr fun key hmem => by
      simp [hfirst, hkeys] at hmem
    simp [hnil]
  | case2 index expired _ first hfirst hlate =>
    have hnil : keys = [] := by
      refine List.eq_nil_iff_forall_not_mem.mpr fun key hmem => ?_
      obtain ⟨hindex, hle⟩ := (hkeys key).mp hmem
      have hge := ExpiryKey.expiresAtMs_le ((Finset.first_eq_some_iff.mp hfirst).2 key hindex)
      exact UInt64.not_le.mpr hlate (UInt64.le_trans hge hle)
    simp [hnil]
  | case3 index expired hlen first hfirst hdue ih =>
    obtain ⟨rest, rfl, hrest⟩ := due_of_first hsorted hkeys hfirst (UInt64.not_lt.mp hdue)
    have hbudget : maxEntries - expired.length =
        maxEntries - (expired ++ [first.id]).length + 1 := by
      rw [List.length_append, List.length_singleton]
      omega
    rw [ih (List.pairwise_cons.mp hsorted).2 hrest, hbudget, List.take_succ_cons, List.map_cons,
      List.append_assoc]
    rfl
  | case4 index expired hlen =>
    rw [Nat.sub_eq_zero_of_le (Nat.not_lt.mp hlen)]
    simp

/-- `e'` is `e` without the first `count` of the entries that are due at `nowMs`. -/
structure Cleans (nowMs : UInt64) (count : Nat) (e e' : Engine) : Prop where
  due : count ≤ (e.dueKeys nowMs).length
  lookup : ∀ id, e'.entries.lookup id =
    if id ∈ ((e.dueKeys nowMs).take count).map (·.id) then none else e.entries.lookup id

theorem Cleans.refl (nowMs : UInt64) (e : Engine) : Cleans nowMs 0 e e :=
  ⟨Nat.zero_le _, fun id => by simp⟩

/-- What was due and has not been removed is still due. -/
theorem Cleans.dueKeys_eq (h : Cleans nowMs count e e') :
    e'.dueKeys nowMs = (e.dueKeys nowMs).drop count := by
  have hsorted := e.dueKeys_sorted nowMs
  refine (e'.dueKeys_sorted nowMs).eq_of_mem_iff (hsorted.sublist (List.drop_sublist _ _))
    fun key => ?_
  have hdue : key ∈ e'.dueKeys nowMs ↔
      key.id ∉ ((e.dueKeys nowMs).take count).map (·.id) ∧ key ∈ e.dueKeys nowMs := by
    rw [mem_dueKeys, mem_dueKeys, Due, h.lookup]
    split
    · next hmem =>
      refine iff_of_false ?_ fun h => h.1 hmem
      rintro ⟨⟨_, hnone, _⟩, _⟩
      cases hnone
    · next hmem => exact ⟨fun h => ⟨hmem, h⟩, And.right⟩
  have hnodup := e.dueKeys_ids_nodup nowMs
  rw [← List.take_append_drop count (e.dueKeys nowMs), List.map_append] at hnodup
  rw [hdue]
  constructor
  · rintro ⟨hkept, hmem⟩
    rw [← List.take_append_drop count (e.dueKeys nowMs), List.mem_append] at hmem
    exact hmem.resolve_left fun htaken => hkept (List.mem_map_of_mem htaken)
  · intro hmem
    refine ⟨fun htaken => ?_, List.mem_of_mem_drop hmem⟩
    exact (List.nodup_append.mp hnodup).2.2 _ htaken _ (List.mem_map_of_mem hmem) rfl

theorem removeExpired_cleans (H : e.Inv) (maxEntries : Nat) :
    Cleans e.clock.nowMs (min maxEntries (e.dueKeys e.clock.nowMs).length) e
        (e.removeExpired maxEntries).2 ∧
      (e.removeExpired maxEntries).1 = min maxEntries (e.dueKeys e.clock.nowMs).length := by
  have hkeys : ∀ key, key ∈ e.dueKeys e.clock.nowMs ↔
      key ∈ e.expiryIndex ∧ key.expiresAtMs ≤ e.clock.nowMs := by
    intro key
    rw [mem_dueKeys, H.indexed.expiry, and_true]
  have hpop := popExpired_eq (e.dueKeys_sorted e.clock.nowMs) hkeys maxEntries []
  rw [List.nil_append, List.length_nil, Nat.sub_zero, List.take_eq_take_min] at hpop
  have heq : e.removeExpired maxEntries = removeEach countExpiration
      { e.tick with expiryIndex := (popExpired maxEntries e.clock.nowMs e.expiryIndex []).2 }
      (((e.dueKeys e.clock.nowMs).take
        (min maxEntries (e.dueKeys e.clock.nowMs).length)).map (·.id)) := by
    rw [← hpop]
    rfl
  refine ⟨⟨Nat.min_le_right _ _, fun id => ?_⟩, ?_⟩
  · rw [heq, lookup_removeEach statsOnly_countExpiration]
    rfl
  · have hnodup := (e.dueKeys_ids_nodup e.clock.nowMs).sublist
      ((List.take_sublist (min maxEntries (e.dueKeys e.clock.nowMs).length) _).map ExpiryKey.id)
    rw [heq, removeEach_count statsOnly_countExpiration hnodup, List.length_map, List.length_take]
    · omega
    · intro id hmem
      obtain ⟨key, hkey, rfl⟩ := List.mem_map.mp hmem
      obtain ⟨entry, hl, -⟩ := (mem_dueKeys.mp (List.mem_of_mem_take hkey)).1
      exact Option.isSome_of_mem hl

end Engine

namespace ShardedEngine

variable {n : Nat} {s : ShardedEngine n} {nowMs : UInt64}

/-- The number of entries in all shards that are removable at `nowMs`. -/
def dueCount (s : ShardedEngine n) (nowMs : UInt64) : Nat :=
  ∑ i, ((s.shards i).dueKeys nowMs).length

/-! ## All shards -/

/-- With one time for all shards, the budget is spent on the entries that are due in any of them. -/
theorem reclaimExpiredBudget_cleans (hinv : ∀ i, (s.shards i).Inv)
    (hnow : ∀ i, (s.shards i).clock.nowMs = nowMs) (maxEntries : Nat) :
    ∃ counts : Fin n → Nat, ∑ i, counts i = min maxEntries (s.dueCount nowMs) ∧
      (s.reclaimExpiredBudget maxEntries).1 = min maxEntries (s.dueCount nowMs) ∧
      ∀ i, Engine.Cleans nowMs (counts i) (s.shards i)
        ((s.reclaimExpiredBudget maxEntries).2.shards i) := by
  -- what is removed so far and what the shards still to visit will add to it
  obtain ⟨counts, left, hend, hfst, hshards⟩ := reclaimShards_invariant
    (P := fun indices remaining removed => min maxEntries (s.dueCount nowMs) =
      removed + min remaining (indices.map fun i => ((s.shards i).dueKeys nowMs).length).sum)
    (Q := fun i count shard => Engine.Cleans nowMs count (s.shards i) shard)
    (fun _ _ hzero => ⟨by simpa using hzero, fun i _ => .refl nowMs _⟩)
    (fun i indices remaining removed _ hP => by
      obtain ⟨hcleans, hcount⟩ := Engine.removeExpired_cleans (hinv i) remaining
      rw [← hcount, hnow i] at hcleans
      rw [hnow i] at hcount
      rw [List.map_cons, List.sum_cons] at hP
      refine ⟨?_, hcleans⟩
      rw [Engine.reclaimExpiredBudget, hcount, hP]
      omega)
    (List.nodup_finRange n) maxEntries 0 (by rw [← Fin.sum_univ_def, Nat.zero_add, dueCount])
  rw [List.map_nil, List.sum_nil, Nat.min_zero, Nat.add_zero, Nat.zero_add] at hend
  refine ⟨counts, ?_, hfst.trans hend.symm, fun i => hshards i (List.mem_finRange i)⟩
  rw [Fin.sum_univ_def, hend]

/-- What a call leaves for the next one. -/
theorem dueCount_reclaimExpiredBudget (hinv : ∀ i, (s.shards i).Inv)
    (hnow : ∀ i, (s.shards i).clock.nowMs = nowMs) (maxEntries : Nat) :
    (s.reclaimExpiredBudget maxEntries).2.dueCount nowMs = s.dueCount nowMs - maxEntries := by
  obtain ⟨counts, hsum, -, hshards⟩ := reclaimExpiredBudget_cleans hinv hnow maxEntries
  have hleft : (s.reclaimExpiredBudget maxEntries).2.dueCount nowMs + ∑ i, counts i =
      s.dueCount nowMs := by
    rw [dueCount, ← Finset.sum_add_distrib, dueCount]
    refine Finset.sum_congr rfl fun i _ => ?_
    rw [(hshards i).dueKeys_eq, List.length_drop]
    exact Nat.sub_add_cancel (hshards i).due
  omega

/-! ## Repeated calls -/

section
variable [NeZero n] (hash : String → Bytes → Nat)

theorem standsAt_exec (h : AllShards (·.clock.StandsAt nowMs) s) (op : Op) :
    AllShards (·.clock.StandsAt nowMs) (s.exec hash op).2 := by
  refine h.exec hash op fun e part _ hstands i hi => ?_
  have hlater := Engine.later_exec e part
  rw [hlater.readings]
  exact hstands i (hlater.reads.trans hi)

theorem standsAt_run (h : AllShards (·.clock.StandsAt nowMs) s) (ops : List Op) :
    AllShards (·.clock.StandsAt nowMs) (s.run hash ops) :=
  Machine.run_invariant (I := AllShards (·.clock.StandsAt nowMs))
    (fun _ op h => standsAt_exec hash h op) h ops

/-- As long as the clocks stand, the budgets of several calls add up. -/
theorem dueCount_run (H : s.Inv) (hclock : AllShards (·.clock.StandsAt nowMs) s)
    (budgets : List Nat) :
    (s.run hash (budgets.map .reclaimExpiredBudget)).dueCount nowMs =
      s.dueCount nowMs - budgets.sum := by
  induction budgets generalizing s with
  | nil => rfl
  | cons budget budgets ih =>
    have hnow : ∀ i, (s.shards i).clock.nowMs = nowMs := fun i => hclock i _ (Nat.le_refl _)
    have hrest := ih (H.exec hash (.reclaimExpiredBudget budget))
      (standsAt_exec hash hclock (.reclaimExpiredBudget budget))
    have hcall : (s.exec hash (.reclaimExpiredBudget budget)).2.dueCount nowMs =
        s.dueCount nowMs - budget := dueCount_reclaimExpiredBudget H.shards hnow budget
    rw [hcall] at hrest
    rw [List.sum_cons, ← Nat.sub_sub]
    exact hrest

/-- **Cleanup does exactly its budget.** In a reachable state of an engine, a call with a budget
removes that many of the entries that are due, the first ones by removable time, namespace and key,
or all of them; it returns and counts their number, and changes no other entry. With one time for
all shards, a call on the sharded engine removes as many entries that are due in any shard and no
others, and returns their number; so enough calls leave nothing that is due at that time. -/
theorem cleanup_does_its_budget (clock : Clock) (clocks : Fin n → Clock) (limits : EngineLimits)
    (ops : List Op) (maxEntries : Nat) :
    let e := (Engine.withClockAndLimits clock limits).run ops
    let e' := (e.reclaimExpiredBudget maxEntries).2
    let due := e.dueKeys e.clock.nowMs
    let s := (withClockAndLimits clocks limits).run hash ops
    (due.Pairwise (· < ·) ∧
      (∀ key, key ∈ due ↔ e.Due key ∧ key.expiresAtMs ≤ e.clock.nowMs) ∧
      (e.reclaimExpiredBudget maxEntries).1 = min maxEntries due.length ∧
      e'.len + min maxEntries due.length = e.len ∧
      e'.stats =
        { e.stats with expirations := e.stats.expirations + min maxEntries due.length } ∧
      ∀ id, e'.entries.lookup id =
        if id ∈ (due.take maxEntries).map (·.id) then none else e.entries.lookup id) ∧
    ∀ nowMs, (∀ i, (s.shards i).clock.nowMs = nowMs) →
      (s.reclaimExpiredBudget maxEntries).1 = min maxEntries (s.dueCount nowMs) ∧
      (∃ counts : Fin n → Nat, ∑ i, counts i = min maxEntries (s.dueCount nowMs) ∧
        ∀ i, Engine.Cleans nowMs (counts i) (s.shards i)
          ((s.reclaimExpiredBudget maxEntries).2.shards i)) ∧
      ((∀ i, (s.shards i).clock.StandsAt nowMs) →
        ∀ budgets : List Nat, (∀ budget ∈ budgets, 0 < budget) →
          s.dueCount nowMs ≤ budgets.length →
            (s.run hash (budgets.map .reclaimExpiredBudget)).dueCount nowMs = 0) := by
  intro e e' due s
  have He : e.Inv := Engine.inv_run clock limits ops
  have Hs : s.Inv := inv_run hash clocks limits ops
  obtain ⟨hcleans, hcount⟩ := Engine.removeExpired_cleans He maxEntries
  refine ⟨⟨e.dueKeys_sorted _, fun _ => Engine.mem_dueKeys, hcount, ?_, ?_, fun id => ?_⟩,
    fun nowMs hnow => ?_⟩
  · rw [← hcount, Nat.add_comm]
    exact Engine.removeExpired_len e maxEntries
  · rw [← hcount]
    exact Engine.removeExpired_stats e maxEntries
  · rw [List.take_eq_take_min]
    exact hcleans.lookup id
  · obtain ⟨counts, hsum, hfst, hshards⟩ := reclaimExpiredBudget_cleans Hs.shards hnow maxEntries
    refine ⟨hfst, ⟨counts, hsum, hshards⟩, fun hclock budgets hpos henough => ?_⟩
    rw [dueCount_run hash Hs hclock, Nat.sub_eq_zero_iff_le]
    exact henough.trans (List.length_le_sum_of_one_le budgets hpos)

end

/-- A put whose entry is due as soon as it is stored. -/
def duePut (key : Bytes) : PutCommand :=
  { ns := "app", key := key, value := [], ttl := some ⟨0⟩, staleTtl := none, tags := []
    cost := none }

/-- Of two entries in two shards, a call with a budget of 1 removes one, and two calls remove
both. -/
theorem cleanup_does_its_budget_duePut :
    let s := (withClockAndLimits (n := 2) (fun _ => ⟨fun _ => 5, 0⟩) default).run firstByte
      [.put .asStored (duePut [0]), .put .asStored (duePut [1])]
    s.dueCount 5 = 2 ∧ (s.reclaimExpiredBudget 1).1 = 1 ∧
      (s.run firstByte [.reclaimExpiredBudget 1, .reclaimExpiredBudget 1]).dueCount 5 = 0 := by
  intro s
  have hstands : ∀ i, (s.shards i).clock.StandsAt 5 := standsAt_run firstByte (fun _ _ _ => rfl) _
  have hdue : s.dueCount 5 = 2 := by decide +kernel
  obtain ⟨hcount, -, hrepeated⟩ := (cleanup_does_its_budget (n := 2) firstByte ⟨fun _ => 5, 0⟩
    (fun _ => ⟨fun _ => 5, 0⟩) default
    [.put .asStored (duePut [0]), .put .asStored (duePut [1])] 1).2 5
    fun i => hstands i _ (Nat.le_refl _)
  refine ⟨hdue, hcount.trans (by rw [hdue]; rfl), ?_⟩
  exact hrepeated hstands [1, 1] (by decide) (by rw [hdue]; decide)

end ShardedEngine
end Cachebox
